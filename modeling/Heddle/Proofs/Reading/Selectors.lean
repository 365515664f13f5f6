import Heddle.Proofs.Reading.Enclosed

/-!
# Selectors in front of a block and of an arrow

Two kinds of statements begin with a chain of selectors: a rule, which has a block behind it, and a
call, which has an arrow there. **The chain is read alike in both** (`Attempt.selecting`).

A chain is not inside of a group, so its own looks could see what follows it. They do not, since
what follows is a brace or an arrow with a blank in front of it (`Lookahead.StopsAtBar`), and no
look of a selector says yes to one. Where a selector opens a group, its arguments or the condition
of a filter, what follows the group can be exchanged anyway.
-/

set_option autoImplicit false

namespace Heddle

open Lookahead

/-- The constructs that chains of selectors are made of. -/
def Production.selects : Production → Bool
  | selectorChain | combinator | descendant | selector | objectSelector | flag | filter => true
  | _ => false

/-- The tokens go from `s` to `s'`, and no statement reaches one of them first. Both are needed of
every token that a selector takes itself. -/
def Token.Steps (k : Nat) (s s' : List Mark) (P : Token → Bool) : Prop :=
  ∀ t, P t = true → t.kind.turn s = some s' ∧ (t.isLandmark = false ∨ 0 < groups s + k)

namespace Token

variable {k : Nat} {s s' : List Mark}

theorem steps_isMark (m : Mark) (ht : (TokenKind.mark m).turn s = some s')
    (hl : m ∉ [Mark.arrow, .leftBrace, .semicolon, .rightBrace] ∨ 0 < groups s + k) :
    Steps k s s' (isMark m) := by
  intro t hm
  have hk := kind_of_isMark hm
  refine ⟨hk ▸ ht, hl.imp_left fun hl => Bool.eq_false_iff.2 fun hany => ?_⟩
  obtain ⟨m', hmem, hm'⟩ := List.any_eq_true.1 hany
  exact hl (TokenKind.mark.inj (hk.symm.trans (kind_of_isMark hm')) ▸ hmem)

theorem steps_isName : Steps k s s isName := by
  intro t ht
  have hk := kind_of_isName ht
  exact ⟨hk ▸ rfl, .inl (by simp [isLandmark, isMark, hk])⟩

theorem steps_isObjectWord : Steps k s s isObjectWord :=
  fun t ht => steps_isName t (Bool.and_eq_true_iff.1 ht).1

theorem steps_isCombinator : Steps k s s isCombinator := by
  intro t ht
  obtain ⟨m, hm, hk⟩ := List.any_eq_true.1 ht
  have hstep : ∀ m ∈ [Mark.greater, .plus, .tilde], (TokenKind.mark m).turn s = some s ∧
      m ∉ [Mark.arrow, .leftBrace, .semicolon, .rightBrace] := by
    rintro m (_ | ⟨_, _ | ⟨_, _ | ⟨_, ⟨⟩⟩⟩⟩) <;> exact ⟨rfl, by decide⟩
  exact steps_isMark m (hstep m hm).1 (.inl (hstep m hm).2) t hk

theorem steps_isTrivia : Steps k s s isTrivia := by
  rintro ⟨kind, text, position⟩ h
  cases kind <;> first | exact ⟨rfl, .inl rfl⟩ | cases h

theorem steps_or {P R : Token → Bool} (hp : Steps k s s' P) (hr : Steps k s s' R) :
    Steps k s s' fun t => P t || R t :=
  fun t ht => (Bool.or_eq_true_iff.1 ht).elim (hp t) (hr t)

end Token

/-! ## Phrases -/

namespace Attempt

/-- What the constructs inside a selector have to be like. Those in groups are exchangeable
anyway; those outside have to be constructs of selectors. -/
structure Selecting (stop : Position) (descend : Options → Production → Tape → Attempt) : Prop
    extends Exchangeable 0 stop descend where
  selector : ∀ o p (tape : Tape) more, p.selects = true → Inside stop [] tape →
    Barred stop more → p.opening (p.front tape.ahead) = true →
    (descend o p (tape.extend more)).Clean → Exchanges 0 stop (descend o p) tape [] []

end Attempt

namespace Phrase

open Attempt

/-- Read where `given` was seen, the phrase goes from `s` to `s'`, and what follows can be
exchanged. The rules below follow the forms of phrases that occur in selectors. -/
def Severs (k : Nat) (stop : Position) (descend : Options → Production → Tape → Attempt)
    (s s' : List Mark) (given : Lookahead) (q : Phrase) : Prop :=
  ∀ o (tape : Tape) more, Inside stop s tape → Barred stop more → given tape.ahead = true →
    (q.read descend o (tape.extend more)).Clean → Exchanges k stop (q.read descend o) tape s s'

namespace Severs

variable {k : Nat} {stop : Position} {descend : Options → Production → Tape → Attempt}
  {s s₁ s' : List Mark} {given : Lookahead} {q : Phrase}

theorem of_unseen (h : Severs k stop descend s s' unseen q) : Severs k stop descend s s' given q :=
  fun o tape more hi hm _ hc => h o tape more hi hm rfl hc

theorem weaken {seen : Lookahead} (h : Severs k stop descend s s' given q)
    (hs : ∀ ts, seen ts = true → given ts = true) : Severs k stop descend s s' seen q :=
  fun o tape more hi hm hg hc => h o tape more hi hm (hs _ hg) hc

theorem empty : Severs k stop descend s s given empty := fun _ _ _ hi _ _ _ => .nothing hi

theorem expected (wanted : Wanted) : Severs k stop descend s s' given (expected wanted) :=
  fun _ _ _ _ _ _ hc => nomatch hc.succeeds

theorem take {P : Token → Bool} (hp : Token.Steps k s s' P) (tag : DataTag) :
    Severs k stop descend s s' (next P) (take tag) := by
  intro o tape more hi _ hg _
  obtain ⟨t, ts, ha, ht⟩ := exists_of_next hg
  exact .take hi ha (hp t ht).1 (hp t ht).2 tag

/-- One phrase behind another one that has left `behind` to be seen. -/
theorem seq {behind : Lookahead} {first second : Phrase}
    (h₁ : Severs k stop descend s s₁ given first)
    (hb : ∀ o (tape : Tape), given tape.ahead = true →
      behind (first.read descend o tape).tape.ahead = true)
    (h₂ : Severs k stop descend s₁ s' behind second) :
    Severs k stop descend s s' given (andThen first second) := by
  intro o tape more hi hm hg hc
  obtain ⟨hc₁, hc₂, -⟩ := hc.of_andThen
  have hx₁ := h₁ o tape more hi hm hg hc₁
  rw [hx₁.agrees more hm] at hc₂
  exact hx₁.andThen (hx₁.clean hm hc₁).succeeds
    (h₂ o _ more hx₁.inside hm (hb o tape hg) hc₂)

theorem andThen {first second : Phrase} (h₁ : Severs k stop descend s s₁ given first)
    (h₂ : Severs k stop descend s₁ s' unseen second) :
    Severs k stop descend s s' given (andThen first second) := seq h₁ (fun _ _ _ => rfl) h₂

theorem takeFirst {P R : Token → Bool} (hp : Token.Steps k s s₁ P) (tag : DataTag)
    (h : Severs k stop descend s₁ s' (next R) q) :
    Severs k stop descend s s' (pair P R) (.andThen (.take tag) q) := by
  refine seq ((take hp tag).weaken fun _ => next_of_pair) (fun o tape hg => ?_) h
  show next R (tape.take tag).2.ahead = true
  rw [Tape.ahead_take]
  exact next_tail_of_pair hg

theorem trivia {behind : Lookahead} (h : Severs k stop descend s s' behind q)
    (hb : ∀ ts, given ts = true → behind (ts.dropWhile Token.isTrivia) = true) :
    Severs k stop descend s s' given (.andThen .trivia q) := by
  refine seq (fun _ _ _ hi _ _ _ => .trivia hi) (fun o tape hg => ?_) h
  show behind tape.takeTrivia.2.ahead = true
  rw [Tape.ahead_takeTrivia]
  exact hb _ hg

theorem choose {test : Lookahead} {yes no : Phrase} (ht : StopsAtBar test)
    (hy : Severs k stop descend s s' (fun ts => given ts && test ts) yes)
    (hn : Severs k stop descend s s' (fun ts => given ts && !test ts) no) :
    Severs k stop descend s s' given (.choose test yes no) := by
  intro o tape more hi hm hg hc
  have hone (more : List Char) (hm : Barred stop more) :
      (Phrase.choose test yes no).read descend o (tape.extend more) =
        if test tape.ahead then yes.read descend o (tape.extend more)
        else no.read descend o (tape.extend more) := by
    rw [Phrase.read, Tape.ahead_extend, ht _ _ hi.blank (hi.stop ▸ hm.bar)]
  rw [hone more hm] at hc
  cases h : test tape.ahead with
  | true =>
    simp only [h, if_true] at hc hone
    exact (hy o tape more hi hm (by simp [hg, h]) hc).congr hone
  | false =>
    simp only [h, Bool.false_eq_true, if_false] at hc hone
    exact (hn o tape more hi hm (by simp [hg, h]) hc).congr hone

theorem either {test : Lookahead} {yes no : Phrase} (ht : StopsAtBar test)
    (hy : Severs k stop descend s s' test yes) (hn : Severs k stop descend s s' unseen no) :
    Severs k stop descend s s' given (.choose test yes no) :=
  choose ht (hy.weaken fun _ h => (Bool.and_eq_true_iff.1 h).2) hn.of_unseen

theorem case {test : Lookahead} {yes otherwise : Phrase} {cases : List (Lookahead × Phrase)}
    (ht : StopsAtBar test) (hy : Severs k stop descend s s' test yes)
    (ho : Severs k stop descend s s' unseen (oneOf cases otherwise)) :
    Severs k stop descend s s' given (oneOf ((test, yes) :: cases) otherwise) := either ht hy ho

theorem expect {P : Token → Bool} (hb : Barless P) (hp : Token.Steps k s s' P) (tag : DataTag)
    (wanted : Wanted) : Severs k stop descend s s' given (expect P tag wanted) :=
  have hbehind : Severs k stop descend s s' unseen
      (.choose (next P) (.take tag) (.expected wanted)) :=
    either (stopsAtBar_next hb) (take hp tag) (expected wanted)
  hbehind.trivia fun _ _ => rfl

theorem repeating (hd : Exchangeable k stop descend) {test : Lookahead} {body : Phrase}
    (hn : test [] = false) (hb : body.takes = true) (ht : StopsAtBar test)
    (h : Severs k stop descend s s test body) :
    Severs k stop descend s s given (.repeating test body) := by
  intro o tape more hi hm _ hc
  refine (hd.repeating hn hb hm (fun tape more hi hm => ?_) (fun tape hi hg hc => ?_) hi hc).2
  · rw [Tape.ahead_extend, ht _ _ hi.blank (hi.stop ▸ hm.bar)]
  · exact h o tape more hi hm hg hc

/-- What is read in a group. -/
theorem enclosed (hd : Exchangeable k stop descend) (hs : s ≠ []) (hk : 0 < groups s + k)
    (he : Balanced unseen q) (hq : q.Looks Local) (ho : q.OwnLooks StopsAtClosing) :
    Severs k stop descend s s given q := by
  intro o tape more hi hm _ hc
  obtain ⟨⟨opened, done⟩, rfl, hx⟩ := hd.phrase hm q hq hs hk
    (fun test ht opened ts more hts => ht ts more _ (by simp [hs]) hts) ho (g := .start) hi
    (he [] (fun g _ => g.opened = []) tape.ahead rfl fun _ => rfl) hc
  exact hx

theorem node (hd : Selecting stop descend) {p : Production} (hp : p.selects = true)
    (ho : ∀ ts, given ts = true → p.opening (p.front ts) = true) :
    Severs 0 stop descend [] [] given (.node p) :=
  fun o tape more hi hm hg hc => hd.selector o p tape more hp hi hm (ho _ hg) hc

end Severs

/-! ## The rules of selectors -/

section selecting

variable {stop : Position} {descend : Options → Production → Tape → Attempt} {given : Lookahead}
  (hd : Selecting stop descend)
include hd

theorem severs_arguments : Severs 0 stop descend [] [] given arguments := by
  have hclosing : (TokenKind.mark .rightParen).turn [.leftParen] = some [] := rfl
  have hright : Token.Steps 0 [.leftParen] [] (Token.isMark .rightParen) :=
    Token.steps_isMark _ hclosing (.inl (by decide))
  refine
    .andThen (.expect (barless_isMark rfl) (Token.steps_isMark _ rfl (.inl (by decide))) _ _) ?_
  refine .either (stopsAtBar_significant (barless_isMark rfl)) ?_ ?_
  · exact .trivia (.take hright _) fun ts h => by rw [next_dropWhile]; exact h
  · refine .andThen ?_ (.expect (barless_isMark rfl) hright _ _)
    refine .enclosed hd.toExchangeable nofun Nat.one_pos (.commaSeparated (.nodeUnseen rfl rfl))
      ?_ ?_
    · simp [Looks]
    · simp [OwnLooks, commaSeparated, further, Phrase.seq, stopsAtClosing_significant]

theorem severs_selectorPart : Severs 0 stop descend [] [] isSelectorPart selectorPart := by
  have hleft {test : Lookahead} {q : Phrase} {given : Lookahead}
      (h : Severs 0 stop descend [] [] test q) :
      Severs 0 stop descend [] [] (fun ts => given ts && test ts) q :=
    h.weaken fun _ h => (Bool.and_eq_true_iff.1 h).2
  have hname (tag : DataTag) : Severs 0 stop descend [] [] (next Token.isName) (take tag) :=
    .take Token.steps_isName tag
  refine .choose (stopsAtBar_marked rfl _) (hleft ?_) (.choose (stopsAtBar_marked rfl _) (hleft ?_)
    (.choose (stopsAtBar_marked rfl _) (hleft ?_) ?_))
  · exact .takeFirst (Token.steps_isMark .dot rfl (.inl (by decide))) _ (hname _)
  · exact .takeFirst (Token.steps_isMark .hash rfl (.inl (by decide))) _ (hname _)
  · refine .node hd rfl ?_
    intro ts h
    rw [Production.front_of_firm _ (Token.firm_isMark _) (next_of_pair h)]
    exact h
  · refine .node hd rfl ?_
    intro ts h
    have hbracket := next_of_isSelectorPart h
    rw [Production.front_of_firm _ (Token.firm_isMark .leftBracket) hbracket]
    exact hbracket

theorem severs_selectorParts : Severs 0 stop descend [] [] given selectorParts :=
  .repeating hd.toExchangeable rfl rfl stopsAtBar_isSelectorPart (severs_selectorPart hd)

theorem severs_combination :
    Severs 0 stop descend [] [] (fun ts => isDescendant ts || significant Token.isCombinator ts)
      (.choose isDescendant (.node .descendant) (.node .combinator)) := by
  refine .choose stopsAtBar_isDescendant ?_ ?_
  · refine .node hd rfl ?_
    intro ts h
    obtain ⟨-, hd⟩ := Bool.and_eq_true_iff.1 h
    exact (Bool.and_eq_true_iff.1 hd).1
  · refine .node hd rfl ?_
    intro ts h
    show next Token.isCombinator (Production.front .combinator ts) = true
    rw [Production.front, if_neg (by decide), next_dropWhile]
    exact right_of_not_left h

end selecting

end Phrase

open Phrase

/-- **The rule of a construct of selectors is severed from what follows.** Outside of groups its
looks stop at a brace or an arrow; inside of them nothing that follows is seen. -/
theorem Production.severs_body {stop : Position}
    {descend : Options → Production → Tape → Attempt} (hd : Attempt.Selecting stop descend)
    {p : Production} (hp : p.selects = true) :
    Severs 0 stop descend [] [] p.opening p.body := by
  cases p <;> try cases hp
  case selectorChain =>
    have hselector {given : Lookahead} : Severs 0 stop descend [] [] given (.node .selector) :=
      .node hd rfl fun _ _ => rfl
    exact .andThen hselector <| .repeating hd.toExchangeable rfl rfl
      (stopsAtBar_isDescendant.or (stopsAtBar_significant barless_isCombinator))
      (.andThen (severs_combination hd) hselector)
  case combinator => exact .take Token.steps_isCombinator _
  case descendant =>
    have htake : Severs 0 stop descend [] [] (next Token.isTrivia) (take .combinator) :=
      .take Token.steps_isTrivia _
    exact .andThen htake (.repeating hd.toExchangeable rfl rfl (stopsAtBar_next barless_isTrivia)
      htake)
  case selector =>
    have hparts {given : Lookahead} : Severs 0 stop descend [] [] given selectorParts :=
      severs_selectorParts hd
    -- The three ways to begin a selector, then the failure.
    refine .case (stopsAtBar_next (barless_or barless_isName (barless_isMark rfl)))
      (.andThen (.take (Token.steps_or Token.steps_isName ?_) _) hparts) ?_
    · exact Token.steps_isMark .star rfl (.inl (by decide))
    refine .case (stopsAtBar_marked rfl _) (.andThen (.node hd rfl fun ts h => ?_) hparts) ?_
    · rw [Production.front_of_firm _ (Token.firm_isMark .atSign) (next_of_pair h)]
      exact h
    · exact .case stopsAtBar_isSelectorPart hparts (.expected _)
  case objectSelector =>
    exact .takeFirst (Token.steps_isMark .atSign rfl (.inl (by decide))) _ <|
      .take Token.steps_isObjectWord _
  case flag =>
    refine .takeFirst (Token.steps_isMark .colon rfl (.inl (by decide))) _ ?_
    exact .andThen (.take Token.steps_isName _) <|
      .either (stopsAtBar_next (barless_isMark rfl)) (severs_arguments hd) .empty
  -- The condition of a filter stands in brackets, so what follows is not seen from inside.
  case filter =>
    have hright : Token.Steps 0 [.leftBracket] [] (Token.isMark .rightBracket) :=
      Token.steps_isMark _ rfl (.inl (by decide))
    refine .andThen (.take (Token.steps_isMark .leftBracket rfl (.inl (by decide))) _) (.andThen ?_
      (.expect (barless_isMark rfl) hright _ _))
    exact .enclosed hd.toExchangeable nofun Nat.one_pos (.nodeUnseen rfl rfl) trivial trivial

namespace Attempt

/-- **Chains of selectors are read alike in front of a block and of an arrow**, however deep nodes
may nest. The statement that a call is read where a rule was (`Document.SelectorCalls`) rests on
it. -/
theorem selecting (stop : Position) (n : Nat) : Selecting stop (Production.read n) := by
  induction n with
  | zero =>
    refine ⟨exchangeable 0 stop 0, fun o p tape more _ h hm _ hc => ?_⟩
    exact Exchanges.enter h hm hc fun start _ _ hc => nomatch hc.succeeds
  | succ n ih =>
    refine ⟨exchangeable 0 stop (n + 1), fun o p tape more hp h hm ho hc => ?_⟩
    refine Exchanges.enter h hm hc fun start hi ha hc => ?_
    exact Production.severs_body ih hp o start more hi hm (ha ▸ ho) hc

end Attempt

end Heddle
