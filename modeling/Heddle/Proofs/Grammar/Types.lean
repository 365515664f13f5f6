import Mathlib.Tactic.SplitIfs
import Heddle.Proofs.Reading.Conservation
import Heddle.Proofs.Grammar.Balanced

/-!
# The tokens of a type

Two choices inside a type look arbitrarily far ahead, for a `|` (`hasBar`) and for a colon
(`hasColon`), and the answer has to mean something behind the types that are read in between. What
both looks pass over is described once: `typeDepth` goes through tokens, counts the brackets that
are open and gives up at a token that no type has at that depth. **A type that was read is a list of
tokens that `typeDepth` goes through back to the depth it began with** (`singleType_depth`,
`type_depth`), and both looks go on behind it as if it were not there.

Only a type with alternatives has a `|` outside of brackets, so `typeDepth` is told whether it may
meet one.
-/

set_option autoImplicit false

namespace Heddle

open Lookahead Token

/-! ## Going through tokens -/

/-- How many brackets are open behind a token of a type, `depth` being open in front. It is `none`
at a token that no type has at that depth, which is where both looks of types say no. -/
def Token.typeTurn (bars : Bool) (depth : Nat) (t : Token) : Option Nat :=
  if t.isMark .leftParen || t.isMark .leftBracket then some (depth + 1)
  else if t.isMark .rightParen || t.isMark .rightBracket then
    match depth with
    | 0 => none
    | depth + 1 => some depth
  else if t.isMark .pipe then if bars || depth != 0 then some depth else none
  else if t.isMark .comma || t.isMark .colon then if depth != 0 then some depth else none
  else if t.isName || t.isMark .atSign || t.isMark .ampersand || t.isMark .fatArrow ||
    t.isTrivia then some depth
  else none

/-- The same behind several tokens. Parentheses and brackets are not told apart, as the looks do
not tell them apart. -/
def typeDepth (bars : Bool) : Nat → List Token → Option Nat
  | depth, [] => some depth
  | depth, t :: ts => (t.typeTurn bars depth).bind fun depth => typeDepth bars depth ts

theorem typeDepth_append (bars : Bool) (depth : Nat) (ts us : List Token) :
    typeDepth bars depth (ts ++ us) =
      (typeDepth bars depth ts).bind fun depth => typeDepth bars depth us := by
  induction ts generalizing depth with
  | nil => rfl
  | cons t ts ih =>
    rw [List.cons_append, typeDepth, typeDepth]
    cases t.typeTurn bars depth with
    | none => rfl
    | some depth => exact ih depth

theorem typeDepth_trivia (bars : Bool) (depth : Nat) {ts : List Token}
    (h : ∀ t ∈ ts, t.isTrivia = true) : typeDepth bars depth ts = some depth := by
  induction ts with
  | nil => rfl
  | cons t ts ih =>
    obtain ⟨ht, hts⟩ := List.forall_mem_cons.1 h
    have hm (m : Mark) : t.isMark m = false := by
      cases hk : t.isMark m with
      | false => rfl
      | true => rw [firm_isMark m t hk] at ht; cases ht
    rw [typeDepth, typeTurn.eq_def]
    simp [hm, ht, ih hts]

/-- A `|` that is seen in front of a token of a type without one is seen behind it. Only this
direction holds: a look that has said no may have met a token that only a type with alternatives
has. -/
theorem hasBar_turn {depth depth' : Nat} {t : Token} (h : t.typeTurn false depth = some depth')
    {us : List Token} (hb : hasBar depth (t :: us) = true) : hasBar depth' us = true := by
  rw [typeTurn.eq_def] at h
  rw [hasBar.eq_def] at hb
  split_ifs at h with hopen hclose hpipe hdepth hsign hdepth hrest
  · simp_all
  · cases depth <;> simp_all
  · -- In brackets the look ahead gives up at a `|`.
    have hk := kind_of_isMark hpipe
    simp_all [isMark, isName, isTrivia, TokenKind.isTrivia]
  · simp_all
  · simp_all

/-- Whether a colon is seen is the same in front of a token of a type and behind it. -/
theorem hasColon_turn {depth depth' : Nat} {t : Token} (h : t.typeTurn true depth = some depth')
    (us : List Token) : hasColon depth (t :: us) = hasColon depth' us := by
  rw [typeTurn.eq_def] at h
  rw [hasColon.eq_def]
  split_ifs at h with hopen hclose hpipe hdepth hsign hdepth hrest
  · simp_all
  · rcases Bool.or_eq_true_iff.1 hclose with hk | hk <;> cases depth <;>
      simp_all [isMark, kind_of_isMark hk]
  · simp_all [isMark, kind_of_isMark hpipe]
  · simp_all
  · simp_all

theorem hasBar_of_typeDepth {depth depth' : Nat} {ts : List Token}
    (h : typeDepth false depth ts = some depth') {us : List Token}
    (hb : hasBar depth (ts ++ us) = true) : hasBar depth' us = true := by
  induction ts generalizing depth with
  | nil => cases h; exact hb
  | cons t ts ih =>
    obtain ⟨mid, ht, hts⟩ := Option.bind_eq_some_iff.1 h
    exact ih hts (hasBar_turn ht hb)

/-- No token of a type but a `|` hides one behind it. -/
theorem hasBar_cons {depth depth' : Nat} {t : Token} (h : t.typeTurn false depth = some depth')
    (ht : t.isMark .pipe = false) {us : List Token} (hb : hasBar depth' us = true) :
    hasBar depth (t :: us) = true := by
  rw [typeTurn.eq_def] at h
  rw [hasBar.eq_def]
  split_ifs at h with hopen hclose hpipe hdepth hsign hdepth hrest
  · simp_all
  · cases depth <;> simp_all
  · simp_all
  · simp_all
  · simp_all

theorem hasBar_of_barless {depth depth' : Nat} {ts : List Token}
    (h : typeDepth false depth ts = some depth') (hn : ∀ t ∈ ts, t.isMark .pipe = false)
    {us : List Token} (hb : hasBar depth' us = true) : hasBar depth (ts ++ us) = true := by
  induction ts generalizing depth with
  | nil => cases h; exact hb
  | cons t ts ih =>
    obtain ⟨mid, ht, hts⟩ := Option.bind_eq_some_iff.1 h
    obtain ⟨hnt, hnts⟩ := List.forall_mem_cons.1 hn
    exact hasBar_cons ht hnt (ih hts hnts)

theorem hasColon_of_typeDepth {depth depth' : Nat} {ts : List Token}
    (h : typeDepth true depth ts = some depth') (us : List Token) :
    hasColon depth (ts ++ us) = hasColon depth' us := by
  induction ts generalizing depth with
  | nil => cases h; rfl
  | cons t ts ih =>
    obtain ⟨mid, ht, hts⟩ := Option.bind_eq_some_iff.1 h
    exact (hasColon_turn ht _).trans (ih hts)

/-- Trivia does not hide a colon. -/
theorem hasColon_dropWhile (ts : List Token) :
    hasColon 0 (ts.dropWhile isTrivia) = hasColon 0 ts := by
  have hd : typeDepth true 0 (ts.takeWhile isTrivia) = some 0 :=
    typeDepth_trivia true 0 fun t ht => List.all_eq_true.1 List.all_takeWhile t ht
  rw [← hasColon_of_typeDepth hd, List.takeWhile_append_dropWhile]

/-- A colon that is next is seen. -/
theorem hasColon_of_colon {ts : List Token} (h : significant (isMark .colon) ts = true) :
    hasColon 0 ts = true := by
  rw [← next_dropWhile] at h
  obtain ⟨t, rest, ha, ht⟩ := exists_of_next h
  rw [← hasColon_dropWhile, ha]
  simp [hasColon, isMark, kind_of_isMark ht]

/-- Behind a bracket that is closed no colon is seen. -/
theorem hasColon_of_rightBracket {ts : List Token}
    (h : significant (isMark .rightBracket) ts = true) : hasColon 0 ts = false := by
  rw [← next_dropWhile] at h
  obtain ⟨t, rest, ha, ht⟩ := exists_of_next h
  rw [← hasColon_dropWhile, ha]
  simp [hasColon, isMark, kind_of_isMark ht]

/-! ## Reading types -/

/-- The constructs that are types. All others are foreign to a type, and a type refers to none of
them. -/
def Production.isType : Production → Bool
  | multipleType | functionType | pointerType | objectType | mapType | arrayType | namedType => true
  | _ => false

/-- What is read where `depth` brackets of a type are open are tokens of the type. A failed
attempt may have taken anything. -/
def Attempt.Turns (bars : Bool) (depth depth' : Nat) (tape : Tape) (a : Attempt) : Prop :=
  a.failure = none →
    ∃ used, tape.ahead = used ++ a.tape.ahead ∧ typeDepth bars depth used = some depth'

namespace Attempt

variable {bars : Bool} {depth depth' mid : Nat} {tape : Tape} {a : Attempt}

theorem Turns.nothing : Turns bars depth depth tape (ofTaken (.nil, tape)) :=
  fun _ => ⟨[], rfl, rfl⟩

theorem Turns.trivia : Turns bars depth depth tape (ofTaken tape.takeTrivia) := by
  intro _
  refine ⟨tape.ahead.takeWhile Token.isTrivia, ?_, typeDepth_trivia _ _ ?_⟩
  · rw [tape_ofTaken, Tape.ahead_takeTrivia]
    exact List.takeWhile_append_dropWhile.symm
  · exact fun t ht => List.all_eq_true.1 List.all_takeWhile t ht

theorem Turns.andThen {next : Tape → Attempt} (ha : Turns bars depth mid tape a)
    (hn : Turns bars mid depth' a.tape (next a.tape)) :
    Turns bars depth depth' tape (a.andThen next) := by
  intro hf
  obtain ⟨h₁, h₂, heq⟩ := andThen_succeeds hf
  obtain ⟨xs, hx, hdx⟩ := ha h₁
  obtain ⟨ys, hy, hdy⟩ := hn h₂
  refine ⟨xs ++ ys, ?_, ?_⟩
  · rw [heq, tape_behind, List.append_assoc, ← hy]
    exact hx
  · rw [typeDepth_append, hdx]
    exact hdy

theorem Turns.framed (ha : Turns bars depth depth' tape a) (file : Option String)
    (kind : NodeKind) (start : Position) :
    Turns bars depth depth' tape (a.framed file kind start) := by
  intro hf
  rw [failure_framed] at hf
  rw [tape_framed]
  exact ha hf

end Attempt

namespace Phrase

open Attempt

variable {descend : Options → Production → Tape → Attempt} {bars : Bool}

/-- The phrase, read under the look ahead, takes tokens of a type. The rules below follow the
forms of phrases, as those of `Balanced` do, with a depth in place of a list of brackets. -/
def Turns (descend : Options → Production → Tape → Attempt) (bars : Bool) (given : Lookahead)
    (depth : Nat) (q : Phrase) (depth' : Nat) : Prop :=
  ∀ o tape, given tape.ahead = true → Attempt.Turns bars depth depth' tape (q.read descend o tape)

namespace Turns

variable {given : Lookahead} {depth depth' mid : Nat} {q : Phrase}

theorem take {P : Token → Bool} (tag : DataTag)
    (h : ∀ t, P t = true → t.typeTurn bars depth = some depth') :
    Turns descend bars (next P) depth (take tag) depth' := by
  intro o tape hg _
  cases ha : tape.ahead with
  | nil => rw [ha] at hg; cases hg
  | cons t ts =>
    rw [ha] at hg
    refine ⟨[t], ?_, ?_⟩
    · simp [Phrase.read, Tape.ahead_take, ha]
    · rw [typeDepth, h t hg]
      rfl

theorem expected (wanted : Wanted) : Turns descend bars given depth (expected wanted) depth' :=
  fun _ _ _ hf => by cases hf

theorem andThen {first second : Phrase} (h₁ : Turns descend bars given depth first mid)
    (h₂ : Turns descend bars unseen mid second depth') :
    Turns descend bars given depth (.andThen first second) depth' :=
  fun o tape hg => (h₁ o tape hg).andThen (h₂ o _ rfl)

theorem behindTrivia {behind : Lookahead} (h : Turns descend bars behind depth q depth')
    (hg : ∀ ts, given ts = true → behind (ts.dropWhile Token.isTrivia) = true) :
    Turns descend bars given depth (.andThen .trivia q) depth' := by
  intro o tape hs
  refine Attempt.Turns.andThen .trivia (h o _ ?_)
  show behind tape.takeTrivia.2.ahead = true
  rw [Tape.ahead_takeTrivia]
  exact hg _ hs

theorem unseenBehind (h : Turns descend bars unseen depth q depth') :
    Turns descend bars given depth (.andThen .trivia q) depth' := behindTrivia h fun _ _ => rfl

theorem choose {test : Lookahead} {yes no : Phrase}
    (hy : Turns descend bars test depth yes depth')
    (hn : Turns descend bars given depth no depth') :
    Turns descend bars given depth (.choose test yes no) depth' := by
  intro o tape hg
  rw [Phrase.read]
  split
  · exact hy o tape ‹_›
  · exact hn o tape hg

theorem repeating {test : Lookahead} {body : Phrase}
    (h : Turns descend bars test depth body depth) :
    Turns descend bars given depth (.repeating test body) depth := by
  have hrounds (o : Options) (rounds : Nat) (tape : Tape) : Attempt.Turns bars depth depth tape
      (Attempt.repeating test (body.read descend o) rounds tape) := by
    induction rounds generalizing tape with
    | zero => exact .nothing
    | succ n ih =>
      rw [Attempt.repeating]
      split
      · exact (h o tape ‹_›).andThen (ih _)
      · exact .nothing
  exact fun o tape _ => hrounds o _ tape

/-- Trivia and a token that was seen behind it. -/
theorem takeSignificant {P : Token → Bool} (tag : DataTag)
    (h : ∀ t, P t = true → t.typeTurn bars depth = some mid)
    (hq : Turns descend bars unseen mid q depth') :
    Turns descend bars (significant P) depth (seq [.trivia, .take tag, q]) depth' :=
  behindTrivia (.andThen (take tag h) hq) fun ts hs => (next_dropWhile P ts).trans hs

theorem expect {P : Token → Bool} (tag : DataTag) (wanted : Wanted)
    (h : ∀ t, P t = true → t.typeTurn bars depth = some depth') :
    Turns descend bars given depth (expect P tag wanted) depth' :=
  unseenBehind (choose (take tag h) (.expected wanted))

end Turns

/-! ### Turns of tokens -/

variable {depth : Nat} {t : Token}

theorem turn_opening {m : Mark} (hm : m = .leftParen ∨ m = .leftBracket)
    (ht : t.isMark m = true) : t.typeTurn bars depth = some (depth + 1) := by
  rw [typeTurn.eq_def]
  rcases hm with rfl | rfl <;> simp [ht]

theorem turn_closing {m : Mark} (hm : m = .rightParen ∨ m = .rightBracket)
    (ht : t.isMark m = true) : t.typeTurn bars (depth + 1) = some depth := by
  have hk := kind_of_isMark ht
  rcases hm with rfl | rfl <;> simp [typeTurn.eq_def, isMark, hk]

theorem turn_inner {m : Mark} (hm : m = .comma ∨ m = .colon) (ht : t.isMark m = true) :
    t.typeTurn bars (depth + 1) = some (depth + 1) := by
  have hk := kind_of_isMark ht
  rcases hm with rfl | rfl <;> simp [typeTurn.eq_def, isMark, hk]

theorem turn_bar (hb : bars = true ∨ 0 < depth) (ht : t.isMark .pipe = true) :
    t.typeTurn bars depth = some depth := by
  have hk := kind_of_isMark ht
  rcases hb with hb | hb
  · simp [typeTurn.eq_def, isMark, hk, hb]
  · simp [typeTurn.eq_def, isMark, hk, Nat.ne_of_gt hb]

theorem turn_outer {m : Mark} (hm : m = .atSign ∨ m = .ampersand ∨ m = .fatArrow)
    (ht : t.isMark m = true) : t.typeTurn bars depth = some depth := by
  have hk := kind_of_isMark ht
  rcases hm with rfl | rfl | rfl <;> simp [typeTurn.eq_def, isMark, hk]

theorem turn_name (ht : t.isName = true) : t.typeTurn bars depth = some depth := by
  have hk := kind_of_isName ht
  simp [typeTurn.eq_def, isMark, isName, hk]

/-! ### Phrases -/

/-- The constructs inside a type take tokens of the type. This is the hypothesis of the induction
over the levels of nodes, about the levels further in. -/
def TypesTurn (descend : Options → Production → Tape → Attempt) (bars : Bool) : Prop :=
  ∀ p : Production, p.isType = true → ∀ depth, (p = .multipleType → bars = true ∨ 0 < depth) →
    Turns descend bars (fun ts => p.opening (p.front ts)) depth (.node p) depth

theorem turns_node (hd : TypesTurn descend bars) {given : Lookahead} {p : Production}
    (hp : p.isType = true) (hm : p ≠ .multipleType)
    (hg : ∀ ts, given ts = true → p.opening (p.front ts) = true) :
    Turns descend bars given depth (.node p) depth :=
  fun o tape h => hd p hp depth (fun he => absurd he hm) o tape (hg _ h)

theorem turns_singleType (hd : TypesTurn descend bars) (depth : Nat) :
    Turns descend bars unseen depth singleType depth := by
  have hnext {p : Production} {P : Token → Bool} (hp : p.isType = true) (hm : p ≠ .multipleType)
      (hf : Firm P) (ho : p.opening = next P) : Turns descend bars (next P) depth (.node p) depth :=
    turns_node hd hp hm fun ts h => by rw [p.front_of_firm hf h, ho]; exact h
  refine .unseenBehind ?_
  refine .choose (hnext rfl (by decide) (firm_isMark _) rfl) <|
    .choose (hnext rfl (by decide) (firm_isMark _) rfl) <|
    .choose (hnext rfl (by decide) (firm_isMark _) rfl) <|
    .choose ?_ <| .choose (hnext rfl (by decide) firm_isName rfl) (.expected _)
  intro o tape h
  rw [Phrase.read]
  split
  · exact (hnext rfl (by decide) (firm_isMark _) rfl : Turns _ _ _ _ (.node .mapType) _) o tape h
  · exact (hnext rfl (by decide) (firm_isMark _) rfl : Turns _ _ _ _ (.node .arrayType) _) o tape h

theorem turns_type (hd : TypesTurn descend bars) {given : Lookahead}
    (hb : bars = true ∨ 0 < depth) : Turns descend bars given depth type depth := by
  refine .unseenBehind (.choose ?_ (turns_singleType hd depth))
  exact fun o tape _ => hd .multipleType rfl depth (fun _ => hb) o tape rfl

theorem turns_typesUpTo (hd : TypesTurn descend bars) (depth : Nat) :
    Turns descend bars unseen (depth + 1) (listUpTo .rightParen type) depth := by
  have hclose (t : Token) (ht : t.isMark .rightParen = true) :
      t.typeTurn bars (depth + 1) = some depth := turn_closing (.inl rfl) ht
  have hlist : Turns descend bars unseen (depth + 1) (commaSeparated type) (depth + 1) :=
    .andThen (turns_type hd (.inr depth.succ_pos)) <| .repeating <|
      .takeSignificant _ (fun t ht => turn_inner (.inl rfl) ht)
        (turns_type hd (.inr depth.succ_pos))
  refine .choose ?_ (.andThen hlist (.expect _ _ hclose))
  exact .behindTrivia (.take _ hclose) fun ts hs => (next_dropWhile _ ts).trans hs

/-- The rule of every type leaves open what was open, and what it has taken counts as part of a
type. -/
theorem turns_body (hd : TypesTurn descend bars) {p : Production} (hp : p.isType = true)
    (hb : p = .multipleType → bars = true ∨ 0 < depth) :
    Turns descend bars p.opening depth p.body depth := by
  have hin {given : Lookahead} : Turns descend bars given (depth + 1) type (depth + 1) :=
    turns_type hd (.inr depth.succ_pos)
  have hclose : Turns descend bars unseen (depth + 1) (mark .rightBracket) depth :=
    .expect _ _ fun t ht => turn_closing (.inr rfl) ht
  -- A group raises the depth by one on its opening mark, and the element types inside it are read
  -- at that depth, where a bar is allowed again.
  cases p <;> try cases hp
  case multipleType =>
    exact .andThen (turns_singleType hd depth) <| .repeating <|
      .takeSignificant _ (fun t ht => turn_bar (hb rfl) ht) (turns_singleType hd depth)
  case functionType =>
    exact .andThen (.take _ fun t ht => turn_opening (.inl rfl) ht) <|
      .andThen (turns_typesUpTo hd depth) <|
      .andThen (.expect _ _ fun t ht => turn_outer (.inr (.inr rfl)) ht) (turns_singleType hd depth)
  case pointerType =>
    exact .andThen (.take _ fun t ht => turn_outer (.inr (.inl rfl)) ht) (turns_singleType hd depth)
  case objectType =>
    exact .andThen (.take _ fun t ht => turn_outer (.inl rfl) ht) <|
      .expect _ _ fun t ht => turn_name ht
  case mapType =>
    exact .andThen (.take _ fun t ht => turn_opening (.inr rfl) ht) <| .andThen hin <|
      .andThen (.expect _ _ fun t ht => turn_inner (.inr rfl) ht) <| .andThen hin hclose
  case arrayType =>
    exact .andThen (.take _ fun t ht => turn_opening (.inr rfl) ht) <| .andThen hin hclose
  case namedType => exact .take _ fun t ht => turn_name ht

end Phrase

/-- A type is read behind the trivia in front of it. -/
theorem Production.turns_enter {p : Production} (hp : p.isType = true) {bars : Bool} {depth : Nat}
    (o : Options) {inside : Tape → Attempt} (hi : ∀ tape, p.opening tape.ahead = true →
      Attempt.Turns bars depth depth tape (inside tape)) {tape : Tape}
    (h : p.opening (p.front tape.ahead) = true) :
    Attempt.Turns bars depth depth tape (p.enter o inside tape) := by
  have hk : p.keepsTrivia = false := by cases p <;> first | rfl | cases hp
  rw [enter_eq, hk, if_neg Bool.false_ne_true]
  rw [front, hk, if_neg Bool.false_ne_true] at h
  refine .andThen .trivia ((hi _ ?_).framed _ _ _)
  show p.opening tape.takeTrivia.2.ahead = true
  rw [Tape.ahead_takeTrivia]
  exact h

/-- **A type takes tokens of a type**, however deep it nests. The induction is on the levels of
nodes that are left. -/
theorem typesTurn_read (n : Nat) (bars : Bool) : Phrase.TypesTurn (Production.read n) bars := by
  induction n with
  | zero => exact fun p hp depth _ o tape hg => p.turns_enter hp o (fun _ _ hf => by cases hf) hg
  | succ n ih =>
    exact fun p hp depth hb o tape hg =>
      p.turns_enter hp o (fun tape h => Phrase.turns_body ih hp hb o tape h) hg

/-- What is seen of a `|` in front of a type is seen behind it, if the type has no `|` itself. So
the loop over alternatives finds the bar that the look has seen. -/
theorem hasBar_singleType (n : Nat) (o : Options) {tape : Tape}
    (hf : (Phrase.singleType.read (Production.read n) o tape).failure = none)
    (hb : hasBar 0 tape.ahead = true) :
    hasBar 0 (Phrase.singleType.read (Production.read n) o tape).tape.ahead = true := by
  obtain ⟨used, hu, hd⟩ := Phrase.turns_singleType (typesTurn_read n false) 0 o tape rfl hf
  exact hasBar_of_typeDepth hd (hu ▸ hb)

/-- What is seen of a colon in front of a type is what is seen behind it. -/
theorem hasColon_type (n : Nat) (o : Options) {tape : Tape}
    (hf : (Phrase.type.read (Production.read n) o tape).failure = none) :
    hasColon 0 tape.ahead =
      hasColon 0 (Phrase.type.read (Production.read n) o tape).tape.ahead := by
  obtain ⟨used, hu, hd⟩ := @Phrase.turns_type _ true 0 (typesTurn_read n true) Phrase.unseen
    (.inl rfl) o tape rfl hf
  rw [hu]
  exact hasColon_of_typeDepth hd _

end Heddle
