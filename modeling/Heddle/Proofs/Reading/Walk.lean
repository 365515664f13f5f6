import Heddle.Proofs.Grammar.Rules
import Heddle.Proofs.Tree.Pruned
import Heddle.Proofs.Token.Braces
import Heddle.Proofs.Token.Loose

/-!
# What a reading does with braces

A block ends at a closing brace, and the question is whether that brace is the partner of the one
the block began with. Every construct that succeeds has closed what it opened, so a brace can only
be missing where a construct was given up: one that fails behind its own opening brace leaves it
open, and skipping behind the failure begins to count anew. `Trace.abandoned` is the number of
braces that were left so.

**The braces that a reading takes go up by exactly the number of those that it abandons**, and
never below where they began (`Walked`). This holds as long as the text does not end: where
skipping runs into the end of the text nothing closes any more, and no block around it is ever
finished. Quoted texts are one token whatever is read inside them, so the traces of their
placeholders do not count.
-/

set_option autoImplicit false

namespace Heddle

/-! ## What a trace says about braces -/

namespace Trace

/-- How often a mark was reported here, and not inside a node. A rule reports its own braces so.
-/
def direct (mark : String) : Trace → Nat
  | nil => 0
  | note (.data .punctuation text) next => (if text = mark then 1 else 0) + next.direct mark
  | note _ next => next.direct mark
  | node _ _ _ next => next.direct mark

/-- The braces that were opened by constructs that were then given up, outside of quoted texts. Of
a dropped node they are those that it reported itself and did not close, along with those
abandoned further inside. -/
def abandoned : Trace → Nat
  | nil => 0
  | note _ next => next.abandoned
  | node kind inside committed next =>
    (if kind = .string then 0
      else if committed then inside.abandoned
      else inside.abandoned + (inside.direct "\x7b" - inside.direct "\x7d")) + next.abandoned

/-- The insides of all blocks that belong to the tree, outside of quoted texts. -/
def blocks : Trace → List Trace
  | nil => []
  | note _ next => next.blocks
  | node kind inside committed next =>
    (if committed && kind != .string then
      (if kind = .block then [inside] else []) ++ inside.blocks
    else []) ++ next.blocks

@[simp] theorem direct_append (mark : String) (t u : Trace) :
    (t ++ u).direct mark = t.direct mark + u.direct mark := by
  induction t with
  | nil => simp [direct]
  | note n next ih =>
    cases n with
    | data tag text => cases tag <;> simp [direct, ih, Nat.add_assoc]
    | _ => exact ih
  | node kind inside committed next _ ih => exact ih

@[simp] theorem abandoned_append (t u : Trace) :
    (t ++ u).abandoned = t.abandoned + u.abandoned := by
  induction t with
  | nil => simp [abandoned]
  | note n next ih => exact ih
  | node kind inside committed next _ ih => simp [abandoned, ih, Nat.add_assoc]

@[simp] theorem blocks_append (t u : Trace) : (t ++ u).blocks = t.blocks ++ u.blocks := by
  induction t with
  | nil => rfl
  | note n next ih => exact ih
  | node kind inside committed next _ ih => simp [blocks, ih]

/-- A note that is no data says nothing about braces. -/
@[simp] theorem abandoned_ofNote (n : Note) : (ofNote n).abandoned = 0 := rfl

@[simp] theorem blocks_ofNote (n : Note) : (ofNote n).blocks = [] := rfl

theorem abandoned_committed {kind : NodeKind} (hk : kind ≠ .string) (inside : Trace) :
    (ofNode kind inside true).abandoned = inside.abandoned := by
  simp [ofNode, abandoned, hk]

theorem abandoned_dropped {kind : NodeKind} (hk : kind ≠ .string) (inside : Trace) :
    (ofNode kind inside false).abandoned =
      inside.abandoned + (inside.direct "\x7b" - inside.direct "\x7d") := by
  simp [ofNode, abandoned, hk]

theorem blocks_committed {kind : NodeKind} (hk : kind ≠ .string) (inside : Trace) :
    (ofNode kind inside true).blocks =
      (if kind = .block then [inside] else []) ++ inside.blocks := by
  simp [ofNode, blocks, hk]

end Trace

/-! ## The tokens that a reading uses up -/

namespace Tape

/-- These are the braces between two tapes. Their places are in front of the second tape, so they
can be told from those behind it by an extent. -/
structure Uses (tape : Tape) (used : List Token) (rest : Tape) : Prop where
  braces : braces tape.ahead = used ++ braces rest.ahead
  behind : ∀ t ∈ used, t.position.byte < rest.place.byte

theorem Uses.nothing (tape : Tape) : Uses tape [] tape := ⟨rfl, nofun⟩

theorem Uses.trans {tape mid rest : Tape} {xs ys : List Token} (hx : Uses tape xs mid)
    (hy : Uses mid ys rest) (hle : mid.place.byte ≤ rest.place.byte) :
    Uses tape (xs ++ ys) rest := by
  refine ⟨by rw [hx.braces, hy.braces, List.append_assoc], fun t ht => ?_⟩
  rcases List.mem_append.1 ht with ht | ht
  · exact Nat.lt_of_lt_of_le (hx.behind t ht) hle
  · exact hy.behind t ht

/-- Taking one token. -/
theorem Lexed.uses_tail {tape : Tape} (h : tape.Lexed) {t : Token} {ts : List Token}
    (ha : tape.ahead = t :: ts) (reach : Nat) :
    Uses tape (Heddle.braces [t]) { tape with ahead := ts, reach } := by
  obtain ⟨-, hp, hn, -⟩ := h.cons ha reach
  refine ⟨?_, ?_⟩
  · rw [ha, ← List.singleton_append, braces_append]
  · intro u hu
    obtain rfl := List.mem_singleton.1 (List.mem_filter.1 hu).1
    rw [h.place_tail ha reach, Position.byte_past, hp]
    obtain ⟨c, cs, hc⟩ := List.exists_cons_of_ne_nil hn
    have := c.utf8Size_pos
    rw [hc, Text.byteSize_cons]
    omega

end Tape

theorem Token.byte_le_of_mem {p : Position} {cs : List Char} {t : Token}
    (h : t ∈ Token.readAll p cs) : p.byte ≤ t.position.byte := by
  fun_induction Token.readAll p cs with
  | case1 => cases h
  | case2 p c cs l ih =>
    rcases List.mem_cons.1 h with rfl | h
    · exact Nat.le_refl _
    · have hle := ih h
      rw [Position.byte_past] at hle
      omega

/-- No token ahead is in front of the tape. -/
theorem Tape.Lexed.byte_le {tape : Tape} (h : tape.Lexed) {t : Token} (ht : t ∈ tape.ahead) :
    tape.place.byte ≤ t.position.byte := by
  rw [h.ahead] at ht
  exact Token.byte_le_of_mem ht

/-! ## Walks -/

/-- Whether a token begins inside the extent. -/
def Location.covers (l : Location) (t : Token) : Bool :=
  decide (l.offset ≤ t.position.byte) && decide (t.position.byte < l.stop)

/-- Of the braces `bs`, those in the extent of the block are a brace that opens, one that closes,
and between them a walk up to the braces that were abandoned inside. The extent does not begin in
front of the byte `first`. -/
def Trace.Grouped (first : Nat) (bs : List Token) (inside : Trace) : Prop :=
  ∃ l opening inner closing, inside.location? = some l ∧ first ≤ l.offset ∧
    bs.filter l.covers = opening :: inner ++ [closing] ∧ opening.isMark .leftBrace = true ∧
    closing.isMark .rightBrace = true ∧ walk 0 inner = some inside.abandoned

namespace Attempt

open Tape

/-- A reading that began with `n` braces of its rule open, and ended with `m`. The walk over the
braces it used ends as high as `m` and what it abandoned, unless the text ends. -/
structure Walked (tape : Tape) (n : Nat) (a : Attempt) (m : Nat) : Prop where
  used : ∃ used, Uses tape used a.tape ∧ ∃ k, walk n used = some k ∧
    (a.tape.ahead ≠ [] → k = m + a.trace.abandoned)
  direct : m + a.trace.direct "\x7d" = n + a.trace.direct "\x7b"
  blocks : ∀ inside ∈ a.trace.blocks, inside.Grouped tape.place.byte (braces tape.ahead)

namespace Walked

/-- What is neither a brace nor a node. -/
theorem plain {tape : Tape} {a : Attempt} (n : Nat) (hu : Uses tape [] a.tape)
    (ha : a.trace.abandoned = 0) (hb : a.trace.blocks = [])
    (hd : a.trace.direct "\x7d" = a.trace.direct "\x7b") : Walked tape n a n := by
  refine ⟨⟨[], hu, n, rfl, fun _ => by rw [ha]; rfl⟩, by rw [hd], fun inside hi => ?_⟩
  rw [hb] at hi
  cases hi

theorem nothing (tape : Tape) (n : Nat) : Walked tape n (ofTaken (.nil, tape)) n :=
  plain n (.nothing tape) rfl rfl rfl

theorem fail (f : Failure) (tape : Tape) (n : Nat) : Walked tape n (fail f tape) n :=
  plain n (.nothing tape) rfl rfl rfl

/-- A block further on is a block of the whole. -/
theorem grouped_behind {tape rest : Tape} {used : List Token} {inside : Trace}
    (hu : Uses tape used rest) (hle : tape.place.byte ≤ rest.place.byte)
    (h : inside.Grouped rest.place.byte (braces rest.ahead)) :
    inside.Grouped tape.place.byte (braces tape.ahead) := by
  obtain ⟨l, opening, inner, closing, hl, hfirst, hf, ho, hc, hw⟩ := h
  refine ⟨l, opening, inner, closing, hl, Nat.le_trans hle hfirst, ?_, ho, hc, hw⟩
  have hnone : used.filter l.covers = [] := by
    apply List.filter_eq_nil_iff.2
    intro t ht hcov
    have hlt := hu.behind t ht
    have hge := of_decide_eq_true (Bool.and_eq_true_iff.1 hcov).1
    omega
  rw [hu.braces, List.filter_append, hnone, hf]
  rfl

/-- Two readings one behind the other: the walk of the second one goes on where the first one
ended. Braces that were abandoned by the first stay open below those of the second. -/
theorem behind {tape : Tape} {a b : Attempt} {n m k : Nat} (ha : Walked tape n a m)
    (hb : Walked a.tape m b k) (hca : Conserves tape a) (hcb : Conserves a.tape b) :
    Walked tape n (b.behind a.trace) k := by
  obtain ⟨xs, hxs, i, hwx, hi⟩ := ha.used
  obtain ⟨ys, hys, j, hwy, hj⟩ := hb.used
  refine ⟨⟨xs ++ ys, hxs.trans hys hcb.byte_le, ?_⟩, ?_, ?_⟩
  · by_cases hn : a.tape.ahead = []
    · -- Nothing is left for the second reading.
      have hnil : ys = [] := by
        have h := hys.braces
        rw [hn, braces_nil] at h
        exact (List.append_eq_nil_iff.1 h.symm).1
      refine ⟨i, by rw [hnil, List.append_nil]; exact hwx, fun hb' => ?_⟩
      exact absurd hn (hcb.ne_nil hb')
    · rw [hi hn] at hwx
      refine ⟨j + a.trace.abandoned, ?_, fun hb' => ?_⟩
      · rw [walk_append, hwx]
        exact walk_add hwy _
      · rw [trace_behind, Trace.abandoned_append, hj hb']
        omega
  · have h₁ := ha.direct
    have h₂ := hb.direct
    rw [trace_behind, Trace.direct_append, Trace.direct_append]
    omega
  · intro inside hin
    rw [trace_behind, Trace.blocks_append] at hin
    rcases List.mem_append.1 hin with hin | hin
    · exact ha.blocks inside hin
    · exact grouped_behind hxs hca.byte_le (hb.blocks inside hin)

/-! ### Tokens and trivia -/

theorem direct_ofData (mark : String) {tag : DataTag} {text : String}
    (h : tag ≠ .punctuation ∨ text ≠ mark) : (Trace.ofData tag text).direct mark = 0 := by
  unfold Trace.ofData Trace.ofNote
  cases tag <;> simp_all [Trace.direct]

/-- A token that the rule takes itself counts as it opens and closes. -/
theorem token {tape : Tape} (h : tape.Lexed) {g g' : Hold} {tag : DataTag} {t : Token}
    {ts : List Token} (ha : tape.ahead = t :: ts) (hg : g.take tag t.kind = some g') :
    Walked tape (depth g.opened) (ofTaken (tape.take tag)) (depth g'.opened) := by
  have hmem : t ∈ Token.readAll tape.place tape.text := by
    rw [← h.ahead, ha]
    exact List.mem_cons_self
  unfold Hold.take at hg
  split at hg <;> rename_i hb
  · cases hg
  obtain ⟨opened, ht, rfl⟩ := Option.map_eq_some_iff.1 hg
  have hu := h.uses_tail ha (if (t.kind.role tag).isTrivia then tape.reach else t.stop)
  have hclimb := Token.climb_of_turn ht
  simp only [Tape.take, ha]
  refine ⟨⟨_, hu, depth opened, ?_, fun _ => rfl⟩, ?_, List.forall_mem_nil _⟩
  · rw [walk_braces, walk_cons, hclimb]
    rfl
  · show depth opened + (Trace.ofData (t.kind.role tag) t.text).direct "\x7d" =
      depth g.opened + (Trace.ofData (t.kind.role tag) t.text).direct "\x7b"
    -- What is reported as data is compared with what the token does to the stack. The text of the
    -- data decides, so a brace must be told by its text as well as by its kind.
    by_cases hl : t.kind = .mark .leftBrace
    · have htag : tag = .punctuation := by simpa [hl, TokenKind.isBracket, Mark.opens] using hb
      have htext : t.text = "\x7b" := String.toList_inj.1 (Token.text_of_mark hmem hl)
      rw [hl] at ht ⊢
      cases ht
      rw [htag, htext]
      simp [TokenKind.role, Trace.ofData, Trace.ofNote, Trace.direct, depth]
    by_cases hr : t.kind = .mark .rightBrace
    · have htag : tag = .punctuation := by
        simpa [hr, TokenKind.isBracket, Mark.opens, Mark.partner?] using hb
      have htext : t.text = "\x7d" := String.toList_inj.1 (Token.text_of_mark hmem hr)
      rw [hr] at ht ⊢
      simp only [TokenKind.turn, Mark.opens, Mark.partner?, Bool.false_eq_true, if_false] at ht
      split at ht <;> rename_i hh
      · cases ht
        obtain ⟨rest, hrest⟩ := List.head?_eq_some_iff.1 hh
        rw [htag, htext, hrest]
        simp [TokenKind.role, Trace.ofData, Trace.ofNote, Trace.direct, depth]
      · cases ht
    · have hnl : t.text ≠ "\x7b" := fun he => hl (Token.mark_of_text hmem (.inl rfl) he)
      have hnr : t.text ≠ "\x7d" := fun he => hr (Token.mark_of_text hmem (.inr rfl) he)
      rw [direct_ofData _ (.inr hnl), direct_ofData _ (.inr hnr), TokenKind.depth_turn ht hl hr]

/-- A token that is taken as something else than punctuation stays so. -/
theorem role_ne_punctuation {tag : DataTag} (hp : tag ≠ .punctuation) (kind : TokenKind) :
    kind.role tag ≠ .punctuation := by
  unfold TokenKind.role
  split
  · split <;> nofun
  · nofun
  · nofun
  · exact hp

/-- What is taken as something else than punctuation is silent. -/
theorem silent_takeMany {tag : DataTag} (hp : tag ≠ .punctuation) (n : Nat) (tape : Tape) :
    (∀ mark, (tape.takeMany tag n).1.direct mark = 0) ∧
      (tape.takeMany tag n).1.abandoned = 0 ∧ (tape.takeMany tag n).1.blocks = [] := by
  induction n generalizing tape with
  | zero => exact ⟨fun _ => rfl, rfl, rfl⟩
  | succ n ih =>
    obtain ⟨hd, ha, hb⟩ := ih (tape.take tag).2
    have hfirst : (∀ mark, (tape.take tag).1.direct mark = 0) ∧
        (tape.take tag).1.abandoned = 0 ∧ (tape.take tag).1.blocks = [] := by
      unfold Tape.take
      split
      · exact ⟨fun _ => rfl, rfl, rfl⟩
      · exact ⟨fun mark => direct_ofData mark (.inl (role_ne_punctuation hp _)), rfl, rfl⟩
    obtain ⟨hd', ha', hb'⟩ := hfirst
    rw [takeMany_succ]
    refine ⟨?_, ?_, ?_⟩
    · intro mark
      rw [Trace.direct_append, hd, hd']
    · rw [Trace.abandoned_append, ha, ha']
    · rw [Trace.blocks_append, hb, hb']
      rfl

theorem uses_takeMany (tag : DataTag) (n : Nat) {tape : Tape} (h : tape.Lexed) :
    Uses tape (braces (tape.ahead.take n)) (tape.takeMany tag n).2 := by
  induction n generalizing tape with
  | zero => exact .nothing tape
  | succ n ih =>
    have hc := Conserves.take tag h
    have hrest := ih hc.lexed
    rw [takeMany_succ]
    cases ha : tape.ahead with
    | nil =>
      rw [tape_ofTaken, take_of_nil tag ha, ha, List.take_nil] at hrest
      rw [take_of_nil tag ha, List.take_nil]
      exact hrest
    | cons t ts =>
      have hfirst := h.uses_tail ha (if (t.kind.role tag).isTrivia then tape.reach else t.stop)
      have hle := (Conserves.takeMany tag n hc.lexed).byte_le
      rw [tape_ofTaken, take_of_cons tag ha] at hrest hle
      rw [take_of_cons tag ha, List.take_succ_cons, ← List.singleton_append, braces_append]
      exact hfirst.trans hrest hle

/-- There is no brace in trivia. -/
theorem uses_takeTrivia {tape : Tape} (h : tape.Lexed) : Uses tape [] tape.takeTrivia.2 := by
  have hu := uses_takeMany .whitespace (tape.ahead.takeWhile (·.kind.isTrivia)).length h
  have hnil : braces (tape.ahead.take (tape.ahead.takeWhile (·.kind.isTrivia)).length) = [] := by
    apply braces_eq_nil
    intro t ht
    rw [← List.prefix_iff_eq_take.1 (List.takeWhile_prefix _)] at ht
    exact (Token.plain_isTrivia t (List.all_eq_true.1 List.all_takeWhile t ht)).1
  rw [hnil] at hu
  exact hu

theorem silent_takeTrivia (tape : Tape) : (∀ mark, tape.takeTrivia.1.direct mark = 0) ∧
    tape.takeTrivia.1.abandoned = 0 ∧ tape.takeTrivia.1.blocks = [] :=
  silent_takeMany (show DataTag.whitespace ≠ .punctuation from nofun) _ tape

theorem trivia {tape : Tape} (h : tape.Lexed) (n : Nat) :
    Walked tape n (ofTaken tape.takeTrivia) n := by
  obtain ⟨hd, ha, hb⟩ := silent_takeTrivia tape
  exact plain n (uses_takeTrivia h) ha hb ((hd _).trans (hd _).symm)

/-! ### Nodes -/

/-- More braces that are open in front stay open. -/
theorem raise {tape : Tape} {a : Attempt} {n m : Nat} (h : Walked tape n a m) (k : Nat) :
    Walked tape (n + k) a (m + k) := by
  obtain ⟨used, hu, i, hw, hi⟩ := h.used
  refine ⟨⟨used, hu, i + k, walk_add hw k, ?_⟩, ?_, h.blocks⟩
  · intro hn
    rw [hi hn]
    omega
  · have hd := h.direct
    omega

/-- A node that is finished has closed all it opened, and one that is given up abandons what it
has not closed. With this the braces that a failure leaves open get into the account. -/
theorem framed {tape : Tape} {a : Attempt} {m : Nat} (h : Walked tape 0 a m)
    {file : Option String} {kind : NodeKind} {start : Position} (hk : kind ≠ .string)
    (hm : a.failure = none → m = 0)
    (hb : a.failure = none → kind = .block →
      (a.trace ++ .ofNote (.location (a.tape.extent file start))).Grouped tape.place.byte
        (braces tape.ahead)) :
    Walked tape 0 (a.framed file kind start) 0 := by
  obtain ⟨used, hu, i, hw, hi⟩ := h.used
  have hd := h.direct
  unfold Attempt.framed
  split <;> rename_i hf
  · refine ⟨⟨used, hu, i, hw, fun hn => ?_⟩, rfl, nofun⟩
    rw [hi hn, Trace.abandoned_dropped hk]
    omega
  · refine ⟨⟨used, hu, i, hw, ?_⟩, rfl, ?_⟩
    · intro hn
      rw [hi hn, hm hf, Trace.abandoned_committed hk, Trace.abandoned_append,
        Trace.abandoned_ofNote, Nat.add_zero]
    · intro inside hin
      rw [Trace.blocks_committed hk, Trace.blocks_append, Trace.blocks_ofNote,
        List.append_nil] at hin
      rcases List.mem_append.1 hin with hin | hin
      · split at hin <;> rename_i hkind
        · rw [List.mem_singleton.1 hin]
          exact hb hf hkind
        · cases hin
      · exact h.blocks inside hin

/-- Skipping inside a block leaves no brace open, unless the text ends. This is the recovery's own
counting, which begins at zero wherever the failure was. -/
theorem walk_skipped (n : Nat) (ts : List Token) :
    ∃ m, walk n (ts.take (Tape.skipped true n ts)) = some m ∧
      (ts.drop (Tape.skipped true n ts) ≠ [] → m = 0) := by
  induction ts generalizing n with
  | nil => exact ⟨n, rfl, fun h => absurd rfl h⟩
  | cons t ts ih =>
    have hgo {n m : Nat} (ht : t.climb n = some m) :
        ∃ k, walk n ((t :: ts).take (Tape.skipped true m ts + 1)) = some k ∧
          ((t :: ts).drop (Tape.skipped true m ts + 1) ≠ [] → k = 0) := by
      obtain ⟨k, hk, hz⟩ := ih m
      exact ⟨k, by rw [List.take_succ_cons, walk_cons, ht]; exact hk, hz⟩
    rw [Tape.skipped.eq_def]
    simp only
    split <;> rename_i hr
    · have hclimb (n : Nat) : t.climb (n + 1) = some n := by
        have hm : t.isMark .rightBrace = true := beq_iff_eq.2 hr
        have hl : t.isMark .leftBrace = false := by rw [Token.isMark, hr]; rfl
        rw [Token.climb, if_neg (by simp [hl]), if_pos hm, if_neg (Nat.succ_ne_zero n)]
        rfl
      -- A closing brace where none is open is left over, and one that closes the last is where
      -- skipping ends.
      rcases n with _ | _ | n
      · exact ⟨0, rfl, fun _ => rfl⟩
      · exact ⟨0, by simp [hclimb 0], fun _ => rfl⟩
      · exact hgo (hclimb (n + 1))
    split <;> rename_i hl
    · apply hgo
      have hm : t.isMark .leftBrace = true := beq_iff_eq.2 hl
      rw [Token.climb, if_pos hm]
    have hnone (n : Nat) : t.climb n = some n :=
      Token.climb_of_not_isBrace (by simp [Token.isBrace, Token.isMark, hr, hl]) n
    split <;> rename_i hs
    · obtain ⟨-, hz⟩ := Bool.and_eq_true_iff.1 hs
      obtain rfl := beq_iff_eq.1 hz
      exact ⟨0, by simp [hnone 0], fun _ => rfl⟩
    · exact hgo (hnone n)

theorem recover {tape : Tape} (h : tape.Lexed) (file : Option String) (f : Failure) :
    Walked tape 0 (recover file true f tape) 0 := by
  have hs := silent_takeMany (show DataTag.invalid ≠ .punctuation from nofun)
    (Tape.skipped true 0 tape.ahead) tape
  obtain ⟨m, hw, hm⟩ := walk_skipped 0 tape.ahead
  have hskip : Walked tape 0 (ofTaken (tape.takeMany .invalid (Tape.skipped true 0 tape.ahead)))
      0 := by
    refine ⟨⟨_, uses_takeMany _ _ h, m, by rw [walk_braces]; exact hw, ?_⟩, ?_, ?_⟩
    · intro hn
      rw [tape_ofTaken, ahead_takeMany] at hn
      rw [hm hn, trace_ofTaken, hs.2.1]
    · rw [trace_ofTaken, hs.1, hs.1]
    · rw [trace_ofTaken, hs.2.2]
      exact nofun
  have hnode : Walked tape 0 ((ofTaken (tape.takeMany .invalid
      (Tape.skipped true 0 tape.ahead))).framed file .invalid tape.place) 0 :=
    hskip.framed nofun (fun _ => rfl) nofun
  have hnote : Walked tape 0 (ofTaken (.ofNote (.error .statement (f.diagnostic file)), tape)) 0 :=
    plain 0 (.nothing tape) rfl rfl rfl
  exact hnote.behind hnode ⟨h, rfl, rfl⟩ ((Conserves.takeMany _ _ h).framed _ _ _)

/-! ### Phrases -/

theorem hexDigits {tape : Tape} (h : tape.Lexed) (n : Nat) :
    Walked tape n (hexDigits tape) n := by
  obtain ⟨xs, ys, zs, hx, hy, hxs, hys⟩ := hexDigits_agree h
  have hu : Uses tape [] (Attempt.hexDigits tape).tape := by
    refine ⟨?_, nofun⟩
    rw [hx, hy, braces_append, braces_append, braces_eq_nil fun t ht => (hxs t ht).1,
      braces_eq_nil fun t ht => (hys t ht).1]
    rfl
  refine plain n hu ?_ ?_ ?_ <;>
    (rcases hexDigits_cases h with hd | ⟨t, rest, -, -, hd⟩ <;> rw [hd] <;> rfl)

/-- A token that is taken apart. -/
theorem apart {tape : Tape} (h : tape.Lexed) {t : Token} {ts : List Token}
    (ha : tape.ahead = t :: ts) (hb : t.isBrace = false) (reach : Nat) {trace : Trace}
    (hab : trace.abandoned = 0) (hbl : trace.blocks = [])
    (hd : trace.direct "\x7d" = trace.direct "\x7b") (n : Nat) :
    Walked tape n (ofTaken (trace, { tape with ahead := ts, reach })) n := by
  have hu := h.uses_tail ha reach
  rw [show braces [t] = [] by simp [braces, hb]] at hu
  exact plain n hu hab hbl hd

/-- The content of an embedded block is silent. -/
theorem silent_content (mark : String) (t : Token) (start stop : Nat) :
    (cut t start stop (pieceIfAny .foreignContent)).direct mark = 0 ∧
      (cut t start stop (pieceIfAny .foreignContent)).abandoned = 0 ∧
      (cut t start stop (pieceIfAny .foreignContent)).blocks = [] := by
  unfold cut pieceIfAny
  split
  · split
    · exact ⟨rfl, rfl, rfl⟩
    · exact ⟨rfl, rfl, rfl⟩
  · exact ⟨rfl, rfl, rfl⟩

/-- A block of another language is one token and no brace, whatever its text spells. -/
theorem foreign {tape : Tape} (h : tape.Lexed) (n : Nat) : Walked tape n (foreign tape) n := by
  unfold Attempt.foreign
  split
  · exact fail _ _ n
  rename_i t ts ha
  split
  · rename_i language hk
    have hb : t.isBrace = false := by simp [Token.isBrace, Token.isMark, hk]
    have hdirect (mark : String) (hm : mark = "\x7b" ∨ mark = "\x7d") (content : Trace)
        (hc : content.direct mark = 0) :
        ((Trace.ofData .punctuation "<" ++ Trace.ofData .language language ++
          Trace.ofData .punctuation ">") ++ content ++
          (Trace.ofData .punctuation "</" ++ Trace.ofData .language language ++
          Trace.ofData .punctuation ">")).direct mark = 0 := by
      simp only [Trace.direct_append, hc]
      rcases hm with rfl | rfl <;> simp [Trace.ofData, Trace.ofNote, Trace.direct]
    refine apart h ha hb _ ?_ ?_ ?_ n
    · simp only [Trace.abandoned_append, (silent_content "" t _ _).2.1]
      rfl
    · simp only [Trace.blocks_append, (silent_content "" t _ _).2.2]
      rfl
    · rw [hdirect _ (.inl rfl) _ (silent_content _ t _ _).1,
        hdirect _ (.inr rfl) _ (silent_content _ t _ _).1]
  · exact fail _ _ n

end Walked

end Attempt

end Heddle
