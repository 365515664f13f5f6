import Heddle.Proofs.Grammar.ClearsTrivia
import Heddle.Proofs.Grammar.Balanced
import Heddle.Proofs.Reading.Moved
import Heddle.Proofs.Reading.Reach
import Heddle.Proofs.Token.Exchange
import Heddle.Proofs.Tree.Outline

/-!
# Two ways to fill a gap

Two sources that are the same but for some trivia have a `Gap`: in front of it both have the same
tokens at the same places, in it one has the trivia `left` and the other one `right`, and behind it
both have the same text, at places of their own. Two readings of such sources go side by side. In
front of the gap they are in the same state, behind it both are a reading of the text behind alone,
moved in two ways, and **a step takes the gap in one go or not at all** (`Gap.Across`).

So a step that takes a single token needs to know that this token is no trivia, while taking all
trivia, or skipping behind an error, is safe everywhere: neither stops in the middle of trivia.
What the two readings report is the same but for places, and but for the trivia in the gap as far
as a view tells it apart (`Gap.Alike`).
-/

set_option autoImplicit false

namespace Heddle

open Text Token Lookahead

/-- The move from the beginning of a source to a place. Both tapes behind the gap are moves of one
text that begins at the origin. -/
def Shift.upTo (p : Position) : Shift := ⟨p.line - 1, p.column - 1, p.byte⟩

theorem Position.origin_shift {p : Position} (hl : 1 ≤ p.line) (hc : 1 ≤ p.column) :
    origin.shift (.upTo p) = p := by
  obtain ⟨line, column, byte⟩ := p
  simp only [shift, origin, Shift.upTo, Shift.column, if_true, mk.injEq]
  simp only at hl hc
  omega

theorem Position.column_le_past {p : Position} (h : 1 ≤ p.column) (cs : List Char) :
    1 ≤ (p.past cs).column := by
  induction cs generalizing p with
  | nil => exact h
  | cons c cs ih =>
    refine ih ?_
    unfold after
    split
    · exact Nat.le_refl _
    · exact Nat.le_succ_of_le h

/-- A moved tape is cut from a text as well. -/
theorem Tape.Moved.lexed_moved {d : Shift} {tape tape' : Tape} (h : tape.Moved d tape') :
    tape'.Lexed := by
  obtain ⟨ahead, stop, reach⟩ := tape'
  have hahead : ahead = readAll (tape.place.shift d) tape.text := by
    rw [readAll_shift d h.line, ← h.lexed.ahead]
    exact h.ahead
  have hstop : stop = (tape.place.shift d).past tape.text := by
    rw [Position.past_shift d h.line, ← h.lexed.stop]
    exact h.stop
  rw [Tape.Lexed, h.place, h.text, Tape.ofText, hahead, hstop]

/-- What is reported of tokens that are taken in a role. -/
def Token.taken (tag : DataTag) : List Token → Trace
  | [] => .nil
  | t :: ts => .ofData (t.kind.role tag) t.text ++ taken tag ts

/-- What is reached when the token is taken in a role. -/
def Token.reached (tag : DataTag) (t : Token) (reach : Nat) : Nat :=
  if (t.kind.role tag).isTrivia then reach else t.stop

theorem Token.reached_le {tag : DataTag} {t : Token} {reach : Nat} (h : reach ≤ t.position.byte) :
    t.reached tag reach ≤ t.stop := by
  unfold reached
  split
  · exact Nat.le_trans h (Nat.le_add_right _ _)
  · exact Nat.le_refl _

/-- Taking the first token of a text. -/
theorem Tape.take_ofText {p : Position} {cs : List Char} {t : Token} {ts : List Token}
    (h : readAll p cs = t :: ts) (tag : DataTag) (reach : Nat) :
    (ofText p cs reach).take tag = (.ofData (t.kind.role tag) t.text,
      .ofText t.behind (spell ts) (t.reached tag reach)) := by
  rw [← ((lexed_ofText p cs reach).cons h (t.reached tag reach)).1]
  exact take_of_cons tag h

/-- Taking the first tokens of a text, and going on behind them. It is used with the tokens of the
gap for `ts`, so that a step over the gap falls into a part in it and a part behind it. -/
theorem Tape.takeMany_ofText {ts : List Token} {p : Position} {cs : List Char} {reach : Nat}
    (hr : readAll p (spell ts ++ cs) = ts ++ readAll (p.past (spell ts)) cs)
    (hreach : reach ≤ p.byte) (tag : DataTag) (n : Nat) :
    ∃ reach' ≤ (p.past (spell ts)).byte,
      Attempt.ofTaken ((ofText p (spell ts ++ cs) reach).takeMany tag (ts.length + n)) =
        (Attempt.ofTaken ((ofText (p.past (spell ts)) cs reach').takeMany tag n)).behind
          (Token.taken tag ts) := by
  induction ts generalizing p reach with
  | nil => exact ⟨reach, hreach, by rw [List.length_nil, Nat.zero_add]; rfl⟩
  | cons t ts ih =>
    obtain ⟨hp, -, rest, htext, hrest⟩ := readAll_eq_cons hr
    rw [spell_cons, List.append_assoc] at htext
    obtain rfl := List.append_cancel_left htext
    have hpast : p.past (spell (t :: ts)) = t.behind.past (spell ts) := by
      rw [spell_cons, Position.past_append, behind, hp]
    have hle : t.reached tag reach ≤ t.behind.byte := by
      rw [byte_behind]
      exact reached_le (hp ▸ hreach)
    rw [hpast] at hrest
    obtain ⟨reach', hr', heq⟩ := ih hrest.symm hle
    refine ⟨reach', hpast ▸ hr', ?_⟩
    have htake := take_ofText hr tag reach
    rw [List.append_eq, spell_append, spell_readAll] at htake
    rw [List.length_cons, Nat.add_right_comm, Attempt.ofTaken_takeMany_succ,
      Attempt.andThen_of_none rfl, Attempt.tape_ofTaken, Attempt.trace_ofTaken, htake, heq, hpast]
    simp only [Attempt.behind, Token.taken, Trace.append_assoc]

/-- All trivia is the same blank at the same place, and every other token is at one place. Two
lists of tokens that are blurred alike answer every look alike that tells no trivia apart. -/
def Disguise.blur : Disguise where
  map t := if t.isTrivia then ⟨.blank, "", .origin⟩ else t.unplaced
  isTrivia_map t := by
    cases ht : t.isTrivia with
    | true => rfl
    | false =>
      obtain ⟨kind, text, position⟩ := t
      cases kind <;> first | rfl | cases ht
  unplaced_map t ht := by
    rw [ht]
    obtain ⟨kind, text, position⟩ := t
    cases kind <;> rfl

theorem Disguise.blur_shift (d : Shift) (t : Token) : blur.map (t.shift d) = blur.map t := by
  obtain ⟨kind, text, position⟩ := t
  cases kind <;> rfl

/-- Tokens that are blurred alike look alike. -/
theorem Lookahead.IgnoresDisguise.eq_of_blurred {test : Lookahead} (ht : test.IgnoresDisguise)
    {ts us : List Token} (h : us.map Disguise.blur.map = ts.map Disguise.blur.map) :
    test us = test ts := by
  rw [← ht .blur us, h, ht]

theorem Disguise.blur_trivia {ts : List Token} (h : ∀ t ∈ ts, t.isTrivia = true) :
    ts.map blur.map = List.replicate ts.length ⟨.blank, "", .origin⟩ := by
  induction ts with
  | nil => rfl
  | cons t ts ih =>
    have ht : blur.map t = ⟨.blank, "", .origin⟩ := if_pos (h t List.mem_cons_self)
    rw [List.map_cons, ht, ih fun u hu => h u (List.mem_cons_of_mem _ hu)]
    rfl

/-- Two ways to fill a place in a text with trivia. The view says which trivia the comparison of
the trees is to forget; the last field, that what is reported of the two fillings looks the same
in it. -/
structure Gap where
  view : View
  place : Position
  left : List Token
  right : List Token
  /-- The text behind the gap. -/
  rest : List Char
  line : 1 ≤ place.line
  column : 1 ≤ place.column
  left_ne_nil : left ≠ []
  length : right.length = left.length
  isTrivia_left : ∀ t ∈ left, t.isTrivia = true
  isTrivia_right : ∀ t ∈ right, t.isTrivia = true
  read_left : readAll place (spell left ++ rest) = left ++ readAll (place.past (spell left)) rest
  read_right :
    readAll place (spell right ++ rest) = right ++ readAll (place.past (spell right)) rest
  /-- In front of the gap both fillings leave the tokens alone. -/
  swaps : Swaps (spell left ++ rest) (spell right ++ rest)
  taken : ∀ tag, (Token.taken tag right).forest.outline view =
    (Token.taken tag left).forest.outline view

namespace Gap

variable (g : Gap)

/-- The text from the gap on. -/
def leftText : List Char := spell g.left ++ g.rest

def rightText : List Char := spell g.right ++ g.rest

/-- How far the text behind the gap is moved. -/
def leftShift : Shift := .upTo (g.place.past (spell g.left))

def rightShift : Shift := .upTo (g.place.past (spell g.right))

/-- From `p` up to the gap there are the tokens `front`. Their text is the same in both sources,
and none of them goes on into the gap. -/
structure Front (front : List Token) (p : Position) (reach : Nat) : Prop where
  ahead : readAll p (spell front ++ g.leftText) = front ++ readAll g.place g.leftText
  place : p.past (spell front) = g.place
  /-- A blank at the end would be one with a blank in the gap. -/
  last : ∀ t ∈ front.getLast?, t.kind ≠ .blank
  reach : reach ≤ p.byte

/-- The two tapes are in front of the gap, in the same state, or both behind it. There is no third
case: no step stops in the middle of the gap. -/
inductive Across : Tape → Tape → Prop
  | front {front : List Token} {p : Position} {reach : Nat} (h : g.Front front p reach) :
      Across (.ofText p (spell front ++ g.leftText) reach)
        (.ofText p (spell front ++ g.rightText) reach)
  | past {base tape tape' : Tape} (h : base.Moved g.leftShift tape)
      (h' : base.Moved g.rightShift tape') : Across tape tape'

/-- The two attempts report the same, as far as the view tells, and leave tapes across the gap. Of
a failure it is only said that both have one, since its place may be moved. -/
structure Alike (a a' : Attempt) : Prop where
  forest : a'.trace.forest.outline g.view = a.trace.forest.outline g.view
  errors : a'.trace.diagnostics.length = a.trace.diagnostics.length
  failure : a'.failure.isSome = a.failure.isSome
  tape : g.Across a.tape a'.tape

theorem right_ne_nil : g.right ≠ [] := fun hn => g.left_ne_nil <| by
  rw [← List.length_eq_zero_iff, ← g.length, hn]
  rfl

/-- The second text has a blank at the beginning of the gap. -/
theorem blank_right : ∀ t ∈ g.right.head?, t.kind = .blank := by
  obtain ⟨w, ts, hright⟩ := List.exists_cons_of_ne_nil g.right_ne_nil
  obtain ⟨c, cs, htext, hc⟩ := g.swaps.blank
  have hread := g.read_right
  rw [htext, hright, readAll_cons] at hread
  intro t ht
  rw [hright] at ht
  cases ht
  rw [← (List.cons.inj hread).1, Lexeme.scan, if_pos hc]
  rfl

variable {g}

/-! ## In front of the gap -/

namespace Front

variable {t : Token} {front : List Token} {p : Position} {reach : Nat}

/-- The tokens in front are the same in both texts. -/
theorem ahead_right (h : g.Front front p reach) :
    readAll p (spell front ++ g.rightText) = front ++ readAll g.place g.rightText := by
  have hplace := h.place
  have hread := h.ahead
  rw [← hplace] at hread ⊢
  exact readAll_swap g.swaps hread h.last

/-- Behind the first of the tokens in front. -/
theorem tail (h : g.Front (t :: front) p reach) {reach' : Nat} (hr : reach' ≤ t.stop) :
    g.Front front t.behind reach' := by
  obtain ⟨hp, -, rest, htext, hrest⟩ := readAll_eq_cons h.ahead
  rw [spell_cons, List.append_assoc] at htext
  obtain rfl := List.append_cancel_left htext
  refine ⟨hrest.symm, ?_, fun u hu => h.last u ?_, by rwa [byte_behind]⟩
  · rw [← h.place, spell_cons, Position.past_append, behind, hp]
  · rw [List.getLast?_cons, Option.mem_def.1 hu]
    rfl

/-- The tapes behind the first of the tokens in front. -/
theorem tapes (h : g.Front (t :: front) p reach) (reach' : Nat) :
    ({ Tape.ofText p (spell (t :: front) ++ g.leftText) reach with
        ahead := front ++ readAll g.place g.leftText, reach := reach' } : Tape) =
      .ofText t.behind (spell front ++ g.leftText) reach' ∧
    ({ Tape.ofText p (spell (t :: front) ++ g.rightText) reach with
        ahead := front ++ readAll g.place g.rightText, reach := reach' } : Tape) =
      .ofText t.behind (spell front ++ g.rightText) reach' := by
  have hbehind {more : List Char}
      (h : readAll p (spell (t :: front) ++ more) = t :: (front ++ readAll g.place more)) :
      ({ Tape.ofText p (spell (t :: front) ++ more) reach with
          ahead := front ++ readAll g.place more, reach := reach' } : Tape) =
        .ofText t.behind (spell front ++ more) reach' := by
    have hcons := ((Tape.lexed_ofText p _ reach).cons h reach').1
    rwa [spell_append, spell_readAll] at hcons
  exact ⟨hbehind h.ahead, hbehind h.ahead_right⟩

/-- Taking the first of the tokens in front. -/
theorem take (h : g.Front (t :: front) p reach) (tag : DataTag) :
    g.Front front t.behind (t.reached tag reach) ∧
    (Tape.ofText p (spell (t :: front) ++ g.leftText) reach).take tag =
      (.ofData (t.kind.role tag) t.text,
        .ofText t.behind (spell front ++ g.leftText) (t.reached tag reach)) ∧
    (Tape.ofText p (spell (t :: front) ++ g.rightText) reach).take tag =
      (.ofData (t.kind.role tag) t.text,
        .ofText t.behind (spell front ++ g.rightText) (t.reached tag reach)) := by
  obtain ⟨hleft, hright⟩ := h.tapes (t.reached tag reach)
  obtain ⟨hp, -⟩ := readAll_eq_cons h.ahead
  refine ⟨h.tail (reached_le (hp ▸ h.reach)), ?_, ?_⟩
  · rw [← hleft]
    exact Tape.take_of_cons tag h.ahead
  · rw [← hright]
    exact Tape.take_of_cons tag h.ahead_right

/-- At the gap there is trivia. -/
theorem next_isTrivia (h : g.Front [] p reach) :
    next isTrivia (readAll p (spell [] ++ g.leftText)) = true ∧
      next isTrivia (readAll p (spell [] ++ g.rightText)) = true := by
  have hhead {ts more : List Token} (hn : ts ≠ []) (ht : ∀ t ∈ ts, t.isTrivia = true) :
      next isTrivia (ts ++ more) = true := by
    obtain ⟨t, ts, rfl⟩ := List.exists_cons_of_ne_nil hn
    exact ht t List.mem_cons_self
  rw [h.ahead, h.ahead_right, leftText, rightText, g.read_left, g.read_right, List.nil_append,
    List.nil_append]
  exact ⟨hhead g.left_ne_nil g.isTrivia_left, hhead g.right_ne_nil g.isTrivia_right⟩

end Front

/-! ## Tapes across the gap -/

namespace Across

variable {tape tape' : Tape}

theorem lexed (h : g.Across tape tape') : tape.Lexed ∧ tape'.Lexed := by
  cases h with
  | front h => exact ⟨Tape.lexed_ofText _ _ _, Tape.lexed_ofText _ _ _⟩
  | past h h' => exact ⟨h.lexed_moved, h'.lexed_moved⟩

/-- The tokens ahead are the same, but for what trivia is and where tokens are. -/
theorem blurred (h : g.Across tape tape') :
    tape'.ahead.map Disguise.blur.map = tape.ahead.map Disguise.blur.map := by
  have hshift {d : Shift} (ts : List Token) :
      (ts.map (·.shift d)).map Disguise.blur.map = ts.map Disguise.blur.map := by
    rw [List.map_map]
    exact List.map_congr_left fun t _ => Disguise.blur_shift d t
  cases h with
  | front h =>
    -- Behind the gap there are the tokens of one text at two places.
    have hrest {p q : Position} (hp : 1 ≤ p.line ∧ 1 ≤ p.column) (hq : 1 ≤ q.line ∧ 1 ≤ q.column) :
        (readAll q g.rest).map Disguise.blur.map = (readAll p g.rest).map Disguise.blur.map := by
      rw [← Position.origin_shift hp.1 hp.2, ← Position.origin_shift hq.1 hq.2,
        readAll_shift _ (Nat.le_refl 1), readAll_shift _ (Nat.le_refl 1), hshift, hshift]
    have hpast (ts : List Token) : 1 ≤ (g.place.past (spell ts)).line ∧
        1 ≤ (g.place.past (spell ts)).column :=
      ⟨Nat.le_trans g.line (Position.line_le_past _ _), Position.column_le_past g.column _⟩
    rw [Tape.ahead_ofText, Tape.ahead_ofText, h.ahead, h.ahead_right, leftText, rightText,
      g.read_left, g.read_right]
    simp only [List.map_append, Disguise.blur_trivia g.isTrivia_left,
      Disguise.blur_trivia g.isTrivia_right, g.length,
      hrest (hpast g.left) (hpast g.right)]
  | past h h' => rw [h.ahead, h'.ahead, hshift, hshift]

/-- A look that tells no trivia apart sees the same. -/
theorem look (h : g.Across tape tape') {test : Lookahead} (ht : test.IgnoresDisguise) :
    test tape'.ahead = test tape.ahead := ht.eq_of_blurred h.blurred

/-- The looks for a call without parentheses differ only where the gap is right behind a name and
begins with a blank in the second text only. -/
theorem isSpacedCall (h : g.Across tape tape') :
    isSpacedCall tape'.ahead = isSpacedCall tape.ahead ∨
      (∀ t ∈ g.left.head?, t.kind ≠ .blank) ∧ Lookahead.isSpacedCall tape.ahead = false ∧
        next isName tape.ahead = true ∧
        ∃ name : Token, name.isName = true ∧ tape'.text = name.chars ++ g.rightText ∧
          read? false tape'.place tape'.text = some (name, g.rightText) := by
  have hblurred := h.blurred
  have hargument {ts us : List Token}
      (h : us.map Disguise.blur.map = ts.map Disguise.blur.map) :
      significant beginsArgument us = significant beginsArgument ts :=
    (ignoresDisguise_significant beginsArgument_disguise).eq_of_blurred h
  -- Where the gap is decides. Behind it both texts are moved alike. In front of it the look goes
  -- over a name and the token behind the name, and only if that token is the first of the gap can
  -- the answers differ.
  cases h with
  | @front front p reach h =>
    cases front with
    | nil =>
      -- No name is trivia.
      have hno {ts : List Token} (ht : next isTrivia ts = true) :
          Lookahead.isSpacedCall ts = false := by
        refine Bool.eq_false_iff.2 fun hs => ?_
        obtain ⟨t, rest, rfl, hname⟩ := exists_of_next (next_of_isSpacedCall hs)
        cases (firm_isName t hname).symm.trans ht
      exact .inl ((hno h.next_isTrivia.2).trans (hno h.next_isTrivia.1).symm)
    | cons t front =>
      rw [Tape.ahead_ofText, Tape.ahead_ofText, h.ahead, h.ahead_right] at hblurred ⊢
      cases front with
      | cons u front =>
        have hrest := hargument (List.cons.inj (List.cons.inj hblurred).2).2
        exact .inl (congrArg (t.isName && u.kind == .blank && ·) hrest)
      | nil =>
        obtain ⟨c, ls, hleft⟩ := List.exists_cons_of_ne_nil g.left_ne_nil
        obtain ⟨w, rs, hright⟩ := List.exists_cons_of_ne_nil g.right_ne_nil
        have hw : w.kind = .blank := g.blank_right w (hright ▸ rfl)
        have hbehind : readAll g.place g.leftText = _ := g.read_left
        have hbehind' : readAll g.place g.rightText = _ := g.read_right
        rw [hbehind, hbehind', hleft, hright] at hblurred ⊢
        have hrest := hargument (List.cons.inj (List.cons.inj hblurred).2).2
        simp only [List.cons_append, List.nil_append, Lookahead.isSpacedCall, hw, List.head?_cons]
        by_cases hc : c.kind = .blank
        · rw [hc]
          exact .inl (congrArg (t.isName && TokenKind.blank == .blank && ·) hrest)
        · have hkind : (c.kind == .blank) = false := beq_eq_false_iff_ne.2 hc
          rw [hkind]
          cases hname : t.isName with
          | false => exact .inl rfl
          | true =>
            have htext : spell [t] ++ g.rightText = t.chars ++ g.rightText := by
              rw [spell_cons, spell_nil, List.append_nil]
            obtain ⟨rest, hread, -⟩ := exists_read? h.ahead_right
            have hrest := (read?_eq_some hread).2.2
            rw [htext] at hrest
            obtain rfl := List.append_cancel_left hrest
            rw [Tape.text_ofText, Tape.place_ofText]
            refine .inr ⟨fun c' hc' => ?_, rfl, hname, t, hname, htext, hread⟩
            cases hc'
            exact hc
  | past h h' =>
    rw [h.ahead, h'.ahead, local_isSpacedCall.ignoresPlaces, local_isSpacedCall.ignoresPlaces]
    exact .inl rfl

theorem length (h : g.Across tape tape') : tape'.ahead.length = tape.ahead.length := by
  have hlen := congrArg List.length h.blurred
  rwa [List.length_map, List.length_map] at hlen

/-- The same number of tokens is trivia. -/
theorem trivia (h : g.Across tape tape') :
    (tape'.ahead.takeWhile isTrivia).length = (tape.ahead.takeWhile isTrivia).length := by
  have hmap (ts : List Token) : ((ts.map Disguise.blur.map).takeWhile isTrivia).length =
      (ts.takeWhile isTrivia).length := by
    rw [List.takeWhile_map, List.length_map]
    congr 2
    funext t
    exact Disguise.blur.isTrivia_map t
  rw [← hmap tape'.ahead, h.blurred, hmap]

end Across

/-! ## Steps -/

namespace Alike

variable {a a' b b' : Attempt} {tape tape' : Tape} (h : g.Across tape tape')

/-- Two readings of the text behind the gap. -/
theorem of_moved {base : Attempt} (ha : base.Moved g.leftShift a)
    (ha' : base.Moved g.rightShift a') : g.Alike a a' := by
  refine ⟨?_, ?_, ?_, .past ha.tape ha'.tape⟩
  · rw [ha.trace, ha'.trace, Trace.forest_shift, Trace.forest_shift, Forest.outline_shift,
      Forest.outline_shift]
  · rw [ha.trace, ha'.trace, Trace.diagnostics_shift, Trace.diagnostics_shift, List.length_map,
      List.length_map]
  · rw [ha.failure, ha'.failure, Option.isSome_map, Option.isSome_map]

/-- Two readings that report the same in front of the gap. -/
theorem of_same (ht : a'.trace = a.trace) (hf : a'.failure.isSome = a.failure.isSome)
    (hx : g.Across a.tape a'.tape) : g.Alike a a' := ⟨by rw [ht], by rw [ht], hf, hx⟩

theorem behind (ha : g.Alike a a') (hb : g.Alike b b') :
    g.Alike (b.behind a.trace) (b'.behind a'.trace) := by
  refine ⟨?_, ?_, hb.failure, hb.tape⟩
  · rw [Attempt.trace_behind, Attempt.trace_behind, Trace.forest_append, Trace.forest_append,
      Forest.outline_append, Forest.outline_append, ha.forest, hb.forest]
  · rw [Attempt.trace_behind, Attempt.trace_behind, Trace.diagnostics_append,
      Trace.diagnostics_append, List.length_append, List.length_append, ha.errors, hb.errors]

theorem failure_eq_none (ha : g.Alike a a') : a'.failure = none ↔ a.failure = none := by
  rw [← Option.not_isSome_iff_eq_none, ha.failure, Option.not_isSome_iff_eq_none]

theorem framed (ha : g.Alike a a') (file : Option String) (kind : NodeKind)
    (start start' : Position) :
    g.Alike (a.framed file kind start) (a'.framed file kind start') := by
  have hf := ha.failure_eq_none
  refine ⟨?_, ?_, ?_, ?_⟩
  · cases hx : a.failure with
    | none =>
      simp only [Attempt.framed, hx, hf.2 hx, Trace.ofNode, Trace.forest, if_true,
        Trace.forest_append, Trace.forest_location, Forest.append_nil, Forest.outline, ha.forest]
    | some f =>
      obtain ⟨f', hx'⟩ := Option.isSome_iff_exists.1 (ha.failure.trans (by rw [hx]; rfl))
      simp [Attempt.framed, hx, hx', Trace.ofNode, Trace.forest]
  · have hlength (a : Attempt) (start : Position) :
        (a.framed file kind start).trace.diagnostics.length = a.trace.diagnostics.length := by
      unfold Attempt.framed
      split <;> simp
    rw [hlength, hlength, ha.errors]
  · rw [Attempt.failure_framed, Attempt.failure_framed, ha.failure]
  · rw [Attempt.tape_framed, Attempt.tape_framed]
    exact ha.tape

include h

theorem nothing : g.Alike (.ofTaken (.nil, tape)) (.ofTaken (.nil, tape')) := of_same rfl rfl h

theorem fail (f f' : Failure) : g.Alike (.fail f tape) (.fail f' tape') := of_same rfl rfl h

/-- A token that is no trivia is not in the gap. -/
theorem take (hs : next isTrivia tape.ahead = false) (tag : DataTag) :
    g.Alike (.ofTaken (tape.take tag)) (.ofTaken (tape'.take tag)) := by
  cases h with
  | @front front p reach h =>
    cases front with
    | nil => cases hs.symm.trans h.next_isTrivia.1
    | cons t front =>
      obtain ⟨hfront, hleft, hright⟩ := h.take tag
      rw [hleft, hright]
      exact of_same rfl rfl (.front hfront)
  | past h h' => exact of_moved (.take h tag) (.take h' tag)

omit h in
/-- The gap is taken as a whole. -/
theorem cross {reach : Nat} (hreach : reach ≤ g.place.byte) (tag : DataTag) (n : Nat) :
    g.Alike (.ofTaken ((Tape.ofText g.place g.leftText reach).takeMany tag (g.left.length + n)))
      (.ofTaken ((Tape.ofText g.place g.rightText reach).takeMany tag (g.left.length + n))) := by
  have hpast {ts : List Token} {reach : Nat} (hr : reach ≤ (g.place.past (spell ts)).byte) :
      (Tape.ofText .origin g.rest 0).Moved (.upTo (g.place.past (spell ts)))
        (.ofText (g.place.past (spell ts)) g.rest reach) := by
    have hm := Tape.Moved.ofText (p := .origin) (d := .upTo (g.place.past (spell ts)))
      (Nat.le_refl 1) g.rest (.inr ⟨rfl, hr⟩)
    rwa [Position.origin_shift (Nat.le_trans g.line (Position.line_le_past _ _))
      (Position.column_le_past g.column _)] at hm
  obtain ⟨r, hr, hleft⟩ := Tape.takeMany_ofText g.read_left hreach tag n
  obtain ⟨r', hr', hright⟩ := Tape.takeMany_ofText g.read_right hreach tag n
  rw [leftText, rightText, hleft, ← g.length, hright]
  have hrest := of_moved (Attempt.Moved.takeMany (hpast hr) tag n)
    (Attempt.Moved.takeMany (hpast hr') tag n)
  refine ⟨?_, ?_, rfl, hrest.tape⟩
  · simp only [Attempt.trace_behind, Trace.forest_append, Forest.outline_append, g.taken,
      hrest.forest]
  · have hnone (ts : List Token) : (Token.taken tag ts).diagnostics = [] := by
      induction ts with
      | nil => rfl
      | cons t ts ih => rw [Token.taken, Trace.diagnostics_append, ih]; rfl
    simp only [Attempt.trace_behind, Trace.diagnostics_append, hnone, List.nil_append,
      hrest.errors]

omit h in
/-- Tokens in front of the gap, the gap, and tokens behind it. -/
theorem takeMany_front {front : List Token} {p : Position} {reach : Nat}
    (h : g.Front front p reach) (tag : DataTag) {n : Nat}
    (hn : n ≤ front.length ∨ front.length + g.left.length ≤ n) :
    g.Alike (.ofTaken ((Tape.ofText p (spell front ++ g.leftText) reach).takeMany tag n))
      (.ofTaken ((Tape.ofText p (spell front ++ g.rightText) reach).takeMany tag n)) := by
  induction front generalizing p reach n with
  | nil =>
    rw [List.length_nil, Nat.le_zero, Nat.zero_add] at hn
    rcases hn with rfl | hn
    · exact nothing (.front h)
    · obtain ⟨n, rfl⟩ := Nat.exists_eq_add_of_le hn
      obtain rfl : p = g.place := h.place
      exact cross h.reach tag n
  | cons t front ih =>
    cases n with
    | zero => exact nothing (.front h)
    | succ n =>
      obtain ⟨hfront, hleft, hright⟩ := h.take tag
      rw [Attempt.ofTaken_takeMany_succ, Attempt.ofTaken_takeMany_succ, hleft, hright]
      have hn' : n ≤ front.length ∨ front.length + g.left.length ≤ n := by
        simp only [List.length_cons] at hn
        omega
      exact behind (of_same rfl rfl (.front hfront)) (ih hfront hn')

/-- So many tokens are taken that the last one and the next one are not both trivia. This is what
a step has to fulfil that takes tokens by number. -/
theorem takeMany {n : Nat} (hn : ∀ front trivia behind, tape.ahead = front ++ trivia ++ behind →
      (∀ t ∈ trivia, t.isTrivia = true) → n ≤ front.length ∨ front.length + trivia.length ≤ n)
    (tag : DataTag) :
    g.Alike (.ofTaken (tape.takeMany tag n)) (.ofTaken (tape'.takeMany tag n)) := by
  cases h with
  | front h =>
    refine takeMany_front h tag (hn _ g.left (readAll (g.place.past (spell g.left)) g.rest) ?_
      g.isTrivia_left)
    rw [Tape.ahead_ofText, h.ahead, leftText, g.read_left, List.append_assoc]
  | past h h' => exact of_moved (.takeMany h tag n) (.takeMany h' tag n)

/-- All trivia ahead. -/
theorem takeAll (tag : DataTag) :
    g.Alike (.ofTaken (tape.takeMany tag (tape.ahead.takeWhile isTrivia).length))
      (.ofTaken (tape'.takeMany tag (tape'.ahead.takeWhile isTrivia).length)) := by
  rw [h.trivia]
  refine takeMany h (fun front trivia behind ha htrivia => ?_) tag
  rw [ha, List.append_assoc, List.takeWhile_append]
  split <;> rename_i hfront
  · refine .inr ?_
    rw [List.takeWhile_append_of_pos htrivia, List.length_append, List.length_append]
    omega
  · exact .inl (List.takeWhile_prefix isTrivia).length_le

theorem takeTrivia : g.Alike (.ofTaken tape.takeTrivia) (.ofTaken tape'.takeTrivia) :=
  takeAll h .whitespace

omit h in
/-- What is skipped behind an error ends with a semicolon or a brace. So the end of it is not
within a run of trivia, wherever that run stands. -/
theorem skipped_whole (inBlock : Bool) (depth : Nat) (front behind : List Token)
    {trivia : List Token} (ht : ∀ t ∈ trivia, t.isTrivia = true) :
    Tape.skipped inBlock depth (front ++ trivia ++ behind) ≤ front.length ∨
      front.length + trivia.length ≤
        Tape.skipped inBlock depth (front ++ trivia ++ behind) := by
  -- The induction is on the tokens in front of the trivia. If the skipping does not end in front
  -- of it, it passes over the trivia as a whole, since no piece of trivia is a mark.
  induction front generalizing depth with
  | nil =>
    refine .inr ?_
    have hskip : Tape.skipped inBlock depth (trivia ++ behind) =
        Tape.skipped inBlock depth behind + trivia.length := by
      induction trivia with
      | nil => rfl
      | cons t ts ih =>
        have hk := ht t List.mem_cons_self
        have hts := ih fun u hu => ht u (List.mem_cons_of_mem _ hu)
        have hmark (m : Mark) : t.kind ≠ .mark m := fun he => by
          rw [Token.isTrivia, he] at hk
          cases hk
        rw [List.cons_append, Tape.skipped.eq_def]
        simp only [hmark, if_false, decide_false, Bool.false_and, Bool.false_eq_true, hts,
          List.length_cons, Nat.add_assoc]
    rw [List.nil_append, hskip]
    simp
  | cons t front ih =>
    have hmore (depth : Nat) :
        Tape.skipped inBlock depth (front ++ trivia ++ behind) + 1 ≤ (t :: front).length ∨
          (t :: front).length + trivia.length ≤
            Tape.skipped inBlock depth (front ++ trivia ++ behind) + 1 := by
      have := ih depth
      rw [List.length_cons]
      omega
    have hone : 1 ≤ (t :: front).length := Nat.succ_pos _
    rw [List.cons_append, List.cons_append, Tape.skipped.eq_def]
    simp only
    split
    · cases depth with
      | zero =>
        simp only
        split
        · exact .inl (Nat.zero_le _)
        · exact .inl hone
      | succ depth =>
        cases depth with
        | zero => exact .inl hone
        | succ depth => exact hmore _
    split
    · exact hmore _
    split
    · exact .inl hone
    · exact hmore _

theorem recover (file : Option String) (inBlock : Bool) (f f' : Failure) :
    g.Alike (.recover file inBlock f tape) (.recover file inBlock f' tape') := by
  have hcount : Tape.skipped inBlock 0 tape'.ahead = Tape.skipped inBlock 0 tape.ahead := by
    rw [← Tape.skipped_disguise .blur, h.blurred, Tape.skipped_disguise]
  have hskip := takeMany h (n := Tape.skipped inBlock 0 tape.ahead)
    (fun front trivia behind ha ht => ha ▸ skipped_whole inBlock 0 front behind ht) .invalid
  unfold Attempt.recover
  rw [hcount]
  have hnode := hskip.framed file .invalid tape.place tape'.place
  refine ⟨?_, ?_, hnode.failure, hnode.tape⟩
  · simp only [Attempt.trace_behind, Trace.forest_append, Forest.outline_append, hnode.forest]
    rfl
  · simp only [Attempt.trace_behind, Trace.diagnostics_append, Trace.diagnostics_error,
      List.length_append, hnode.errors]
    rfl

/-! ## Inside tokens -/

omit h in
/-- A token in front of the gap that is taken apart. -/
theorem apart {t : Token} {front : List Token} {p : Position} {reach : Nat}
    (h : g.Front (t :: front) p reach) (trace : Trace) {read : Tape → Attempt}
    (hread : ∀ (tape : Tape) ts, tape.ahead = t :: ts →
      read tape = .ofTaken (trace, { tape with ahead := ts, reach := t.stop })) :
    g.Alike (read (.ofText p (spell (t :: front) ++ g.leftText) reach))
      (read (.ofText p (spell (t :: front) ++ g.rightText) reach)) := by
  obtain ⟨hleft, hright⟩ := h.tapes t.stop
  rw [hread _ _ h.ahead, hread _ _ h.ahead_right]
  refine of_same rfl rfl ?_
  rw [Attempt.tape_ofTaken, Attempt.tape_ofTaken]
  exact hleft ▸ hright ▸ .front (h.tail (Nat.le_refl _))

/-- A quoted text is one token, so its placeholders are in front of the gap or behind it. In front
of it both readings are one and the same, behind it they are two moved ones. -/
theorem quoted (hs : next isTrivia tape.ahead = false) {read : Bool → Tape → Attempt}
    (hr : ∀ d isBraced, ∀ tape tape' : Tape, tape.Moved d tape' →
      (read isBraced tape).Moved d (read isBraced tape')) (file : Option String) :
    g.Alike (.quoted file read tape) (.quoted file read tape') := by
  cases h with
  | @front front p reach h =>
    cases front with
    | nil => cases hs.symm.trans h.next_isTrivia.1
    | cons t front =>
      cases hps : t.kind.placeholders?.getD [] with
      | nil =>
        refine apart h (.ofData .stringChunk t.text) fun tape ts ha => ?_
        simp only [Attempt.quoted, ha, hps]
      | cons q qs =>
        refine apart h (Attempt.interpolated file read t t.position.byte t.stop (q :: qs))
          fun tape ts ha => ?_
        simp only [Attempt.quoted, ha, hps]
  | past h h' => exact of_moved (.quoted (hr _) file h) (.quoted (hr _) file h')

/-- A block of another language is one token as well. -/
theorem foreign : g.Alike (.foreign tape) (.foreign tape') := by
  have hno {tape : Tape} (hn : next isForeign tape.ahead = false) :
      Attempt.foreign tape = .fail (tape.missing .foreignBlock) tape := by
    unfold Attempt.foreign
    cases ha : tape.ahead with
    | nil => rfl
    | cons t ts =>
      rw [ha, next, List.head?_cons, Option.any_some, isForeign] at hn
      simp only
      split <;> rename_i hk
      · rw [hk] at hn
        cases hn
      · rfl
  cases hf : next isForeign tape.ahead with
  | false =>
    rw [hno hf, hno ((h.look (ignoresDisguise_next isForeign_disguise)).trans hf)]
    exact fail h _ _
  | true =>
    cases h with
    | @front front p reach h =>
      rw [Tape.ahead_ofText, h.ahead] at hf
      cases front with
      | nil =>
        rw [leftText, g.read_left] at hf
        obtain ⟨t, ts, hleft⟩ := List.exists_cons_of_ne_nil g.left_ne_nil
        have ht := g.isTrivia_left t (hleft ▸ List.mem_cons_self)
        rw [hleft] at hf
        replace hf : t.isForeign = true := hf
        cases hk : t.kind <;> simp [isTrivia, isForeign, TokenKind.isTrivia, hk] at ht hf
      | cons t front =>
        replace hf : t.isForeign = true := hf
        cases hk : t.kind with
        | foreign language =>
          -- What is reported of the token can be seen where it stands alone.
          refine apart h (Attempt.foreign ⟨[t], .origin, 0⟩).trace fun tape ts ha => ?_
          simp only [Attempt.foreign, ha, hk]
          rfl
        | _ => simp [isForeign, hk] at hf
    | past h h' => exact of_moved (.foreign h) (.foreign h')

/-- The digits of a color end in front of the gap. -/
theorem hexDigits : g.Alike (.hexDigits tape) (.hexDigits tape') := by
  cases h with
  | @front front p reach h =>
    have hleft := digits?_stops g.swaps.stops p (spell front)
    have hright := digits?_stops g.swaps.stops_right p (spell front)
    rw [Attempt.hexDigits_eq (Tape.lexed_ofText _ _ _),
      Attempt.hexDigits_eq (Tape.lexed_ofText _ _ _), Tape.place_ofText, Tape.place_ofText,
      Tape.text_ofText, Tape.text_ofText, leftText, rightText, hleft, hright]
    cases hd : digits? p (spell front) with
    | none => exact fail (.front h) _ _
    | some found =>
      obtain ⟨t, rest⟩ := found
      rw [hd] at hleft
      obtain ⟨hread, hk⟩ := Option.filter_eq_some_iff.1 hleft
      obtain ⟨front', hrest, hahead, hlast, hfront⟩ :=
        exists_behind_digits g.swaps.stops h.ahead h.last hread hk
      obtain rfl : rest = spell front' := List.append_cancel_right hrest
      obtain ⟨hp, -⟩ := read?_eq_some hread
      have hbehind : g.Front front' t.behind t.stop := by
        refine ⟨hahead, ?_, hlast, ?_⟩
        · rw [← h.place, hfront, Position.past_append, Token.behind, hp]
        · rw [byte_behind]
      exact of_same rfl rfl (.front hbehind)
  | past h h' => exact of_moved (.hexDigits h) (.hexDigits h')

end Alike

end Gap

end Heddle
