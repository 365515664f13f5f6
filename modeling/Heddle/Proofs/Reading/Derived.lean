import Mathlib.Data.List.DropRight
import Heddle.Proofs.Grammar.Children
import Heddle.Proofs.Grammar.Types
import Heddle.Proofs.Reading.Spelled

/-!
# Every reading leaves a derived tree

What a phrase spells is what its readings leave behind: `Derives.sound` goes through the rules of
`Phrase.Spells` once. A success leaves children that match the expression, and below them nothing
but derived trees. **A failed construct leaves nothing in its parent**, trivia apart, so the
leftovers of what was given up are in no node.

Two things need more than the form of phrases. A type with alternatives has two of them, unless
something stands behind it that no rule accepts there. And a placeholder may fail halfway, so what
it leaves behind then has to be said as well.
-/

set_option autoImplicit false

namespace Heddle

open Lookahead Text

namespace Attempt

/-! ## Phrases -/

/-- What the constructs inside a phrase leave behind. The last field is about blocks because a
block is the one construct that follows a type in a rule, and has to refuse what could go on with
it. -/
structure Derives (descend : Options → Production → Tape → Attempt) : Prop where
  conserves : ∀ o p tape, tape.Lexed → Conserves tape (descend o p tape)
  progress : ∀ o p tape, p.takes = true → tape.Lexed → Progress tape (descend o p tape)
  /-- A success is a node of its kind. -/
  spells : ∀ o p tape, tape.Lexed → p.seen (p.front tape.ahead) = true →
    Spells (.node p.kind) p.ending (descend o p tape)
  /-- A failure leaves nothing. -/
  silent : ∀ o p tape, tape.Lexed → (descend o p tape).failure ≠ none →
    (descend o p tape).trace.Spelt 1
  /-- No block begins with something that goes on with a type. -/
  refuses : ∀ o tape, tape.Lexed → typeGoesOn tape.ahead = true →
    (descend o .block tape).failure ≠ none

variable {descend : Options → Production → Tape → Attempt}

theorem mark_of_typeGoesOn {m : Mark} (hm : ∀ t : Token, t.isMark m = true → t.isOfType = false)
    {ts : List Token} (h : typeGoesOn ts = true) :
    significant (Token.isMark m) ts = false := by
  unfold typeGoesOn significant at *
  cases hf : ts.find? (!·.isTrivia) with
  | none => rfl
  | some t =>
    rw [hf] at h
    cases ht : t.isMark m with
    | false => exact ht
    | true => exact absurd (show t.isOfType = true from h) (by rw [hm t ht]; simp)

/-- A mark that does not follow: the trivia in front is taken, and the failure is behind it. -/
theorem read_mark_of_not (m : Mark) (o : Options) {tape : Tape}
    (h : significant (Token.isMark m) tape.ahead = false) :
    (Phrase.mark m).read descend o tape =
      (Attempt.fail (tape.takeTrivia.2.missing (.mark m)) tape.takeTrivia.2).behind
        tape.takeTrivia.1 := by
  have hn : next (Token.isMark m) tape.takeTrivia.2.ahead = false := by
    rw [Tape.ahead_takeTrivia]
    exact (next_dropWhile _ _).trans h
  show (ofTaken tape.takeTrivia).andThen _ = _
  rw [andThen_of_none rfl, tape_ofTaken, trace_ofTaken, Phrase.read,
    if_neg (Bool.eq_false_iff.1 hn)]
  rfl

theorem failure_mark (m : Mark) (o : Options) {tape : Tape}
    (h : significant (Token.isMark m) tape.ahead = false) :
    ((Phrase.mark m).read descend o tape).failure ≠ none := by
  rw [read_mark_of_not m o h]
  exact Option.some_ne_none _

theorem Derives.refuses_phrase (hd : Derives descend) {q : Phrase} (hq : q.Refuses) (o : Options)
    {tape : Tape} (h : tape.Lexed) (hg : typeGoesOn tape.ahead = true) :
    (q.read descend o tape).failure ≠ none := by
  induction hq with
  | mark hm => exact failure_mark _ o (mark_of_typeGoesOn hm hg)
  | andThen second _ ih => exact fun hf => ih (andThen_succeeds hf).1
  | optional hm tag rest _ ih =>
    intro hf
    rw [Phrase.read, Phrase.optional, Phrase.read,
      if_neg (by simp [mark_of_typeGoesOn hm hg])] at hf
    exact ih (andThen_succeeds hf).2.1
  | block => exact hd.refuses o tape h hg

/-- A choice of constructs that fails leaves nothing. So a list of statements leaves nothing of a
statement that failed but the node of what was skipped. -/
theorem Derives.silent_phrase (hd : Derives descend) {q : Phrase} (hq : q.isChoice = true)
    (o : Options) {tape : Tape} (h : tape.Lexed) (hf : (q.read descend o tape).failure ≠ none) :
    (q.read descend o tape).trace.Spelt 1 := by
  fun_induction Phrase.isChoice q generalizing tape with
  | case1 p => exact hd.silent o p tape h hf
  | case2 | case3 => exact .nil rfl
  | case4 test yes no ihy ihn =>
    obtain ⟨hy, hn⟩ := Bool.and_eq_true_iff.1 hq
    rw [Phrase.read] at hf ⊢
    split at hf <;> rename_i ht
    · exact if_pos ht ▸ ihy hy h hf
    · exact if_neg ht ▸ ihn hn h hf
  | case5 q ih =>
    have hl : tape.takeTrivia.2.Lexed := (Attempt.conserves.takeTrivia tape h).lexed
    exact (ih hq hl hf).behind (spelt_trivia tape)
  | case6 => cases hq

/-- The tokens of a block of another language: two tags of three pieces each, and the content if
there is any. -/
theorem spelt_foreign {tape : Tape} {t : Token} {ts : List Token} (ha : tape.ahead = t :: ts)
    (ht : t.isForeign = true) : (foreign tape).trace.Spelt NodeKind.foreign.children := by
  have hcontent (start stop : Nat) : (cut t start stop (pieceIfAny .foreignContent)).Spelt
      (.opt (.data .foreignContent)) := by
    unfold cut pieceIfAny
    split
    · split
      · exact .nil Rule.nil_mem_opt
      · exact .data (Rule.mem_right rfl)
    · exact (Trace.Spelt.fault _ _).weaken fun _ => Rule.mem_left
  cases hk : t.kind with
  | foreign language =>
    simp only [foreign, ha, hk, trace_ofTaken]
    have htag (sign : String) : (Trace.ofData .punctuation sign ++
        Trace.ofData .language language ++ Trace.ofData .punctuation ">").Spelt
        (.seq [.char (.sign .punctuation sign), .data .language,
          .char (.sign .punctuation ">")]) := by
      have hsign (s : String) : (Trace.ofData .punctuation s).Spelt
          (.char (.sign .punctuation s)) := .data rfl
      have hlanguage : (Trace.ofData .language language).Spelt (.data .language) := .data rfl
      exact (((hsign sign).append hlanguage).append (hsign ">")).weaken
        (le_of_eq (mul_assoc _ _ _))
    refine (((htag "<").append (hcontent _ _)).append (htag "</")).weaken (le_of_eq ?_)
    simp only [RegularExpression.matches'_mul, NodeKind.children, Rule.seq, mul_assoc]
  | _ => simp [Token.isForeign, hk] at ht

/-- The digits of a color. -/
theorem spells_hexDigits {r : Rule} (h : [.data .color] ∈ r.matches') {tape : Tape}
    (hl : tape.Lexed) : Spells r .plain (hexDigits tape) := by
  rcases hexDigits_cases hl with hx | ⟨t, rest, -, -, hx⟩
  · exact .of_failure (congrArg Attempt.failure hx)
  · rw [hx]
    exact .of_spelt (.data h)

/-- A loop over something that always ends as it should. -/
theorem spells_repeating {test : Lookahead} {body : Tape → Attempt} (ht : test [] = false)
    (hc : ∀ tape, tape.Lexed → Conserves tape (body tape))
    (hp : ∀ tape, tape.Lexed → Progress tape (body tape)) {r : Rule}
    (hb : ∀ tape, tape.Lexed → test tape.ahead = true → Spells r .plain (body tape)) {tape : Tape}
    (h : tape.Lexed) : Spells (.many r) .plain (repeating test body tape.size tape) := by
  refine repeating_rule (P := fun _ a => Spells (.many r) .plain a) ht hc hp ?_ ?_ ?_ h
    (Nat.le_refl _)
  · exact fun _ _ _ => .of_spelt (.nil Rule.nil_mem_many)
  · exact fun _ _ _ _ hf => .of_failure hf
  · exact fun tape b h hg hf hm hfb => .inl (.many ((hb tape h hg).spelt hf) (hm.spelt hfb))

/-- A loop over something that may end with a type that is none, behind which the loop ends. The
second part says that in front of what goes on with a type the loop does not even begin. -/
theorem spells_furtherTypes {test : Lookahead} {body : Tape → Attempt} (ht : test [] = false)
    (hc : ∀ tape, tape.Lexed → Conserves tape (body tape))
    (hp : ∀ tape, tape.Lexed → Progress tape (body tape)) {r : Rule}
    (hb : ∀ tape, tape.Lexed → test tape.ahead = true → Spells r .type (body tape))
    (hstop : ∀ ts, typeGoesOn ts = true → test ts = false) {tape : Tape} (h : tape.Lexed) :
    Spells (.many r) .type (repeating test body tape.size tape) ∧
      (typeGoesOn tape.ahead = true →
        repeating test body tape.size tape = ofTaken (.nil, tape)) := by
  refine repeating_rule
    (P := fun tape a => Spells (.many r) .type a ∧
      (typeGoesOn tape.ahead = true → a = ofTaken (.nil, tape)))
    ht hc hp ?_ ?_ ?_ h (Nat.le_refl _)
  · exact fun tape _ _ => ⟨.of_spelt (.nil Rule.nil_mem_many), fun _ => rfl⟩
  · exact fun tape f _ hg hf => ⟨.of_failure hf, fun hs => by rw [hstop _ hs] at hg; cases hg⟩
  · intro tape b h hg hf ⟨hb', hstop'⟩
    refine ⟨fun hfb => ?_, fun hs => by rw [hstop _ hs] at hg; cases hg⟩
    rcases hb tape h hg hf with hr | ⟨-, hgo⟩
    · rcases hb' hfb with hm | hm
      · exact .inl (.many hr hm)
      · exact .inr hm
    · -- Behind a type that is none nothing more was read.
      rw [hstop' hgo]
      exact .inr ⟨rfl, hgo⟩

namespace Derives

variable (hd : Derives descend) (o : Options) {tape : Tape}
include hd

theorem conserves_phrase (q : Phrase) (hl : tape.Lexed) :
    Conserves tape (q.read descend o tape) :=
  Attempt.conserves.phrase hd.conserves q o tape hl

theorem progress_phrase {q : Phrase} (hq : q.takes = true) (hl : tape.Lexed) :
    Progress tape (q.read descend o tape) :=
  Attempt.progress_phrase hd.conserves hd.progress q hq o hl

/-- A construct of which enough was seen, as a child in any rule that its kind matches. -/
theorem spells_node {p : Production} {r : Rule} (h : [.node p.kind] ∈ r.matches')
    (hl : tape.Lexed) (hg : p.seen (p.front tape.ahead) = true) :
    Spells r p.ending (descend o p tape) := by
  refine (hd.spells o p tape hl hg).weaken fun w hw => ?_
  cases hw
  exact h

/-- A type in brackets is a map or an array, and both are opened by the bracket that was seen. -/
theorem spells_bracketType {r : Rule} (hm : [.node .mapType] ∈ r.matches')
    (ha : [.node .arrayType] ∈ r.matches') (hl : tape.Lexed)
    (hg : next (Token.isMark .leftBracket) tape.ahead = true) :
    Spells r .plain ((Phrase.choose isMapType (.node .mapType) (.node .arrayType)).read descend o
      tape) := by
  have hseen {p : Production} (hp : p.seen = next (Token.isMark .leftBracket)) :
      p.seen (p.front tape.ahead) = true := by
    rw [p.front_of_firm (Token.firm_isMark _) hg, hp]
    exact hg
  rw [Phrase.read]
  split
  · exact hd.spells_node o hm hl (hseen rfl)
  · exact hd.spells_node o ha hl (hseen rfl)

/-- A loop whose look ahead has already said yes: one round, and then the loop. -/
theorem spells_repeatingSeen {test : Lookahead} {body : Phrase} {r : Rule} (ht : test [] = false)
    (hb : body.takes = true)
    (h : ∀ tape : Tape, tape.Lexed → test tape.ahead = true →
      Spells r .plain (body.read descend o tape))
    (hl : tape.Lexed) (hg : test tape.ahead = true) :
    Spells (.oneOrMore r) .plain ((Phrase.repeating test body).read descend o tape) := by
  have hc (tape : Tape) (hl : tape.Lexed) := hd.conserves_phrase o body hl
  have hp (tape : Tape) (hl : tape.Lexed) := hd.progress_phrase o hb hl
  show Spells _ _ (Attempt.repeating _ _ _ _)
  rw [repeating_eq ht hc hp hl, if_pos hg]
  exact .andThen (h tape hl hg) (spells_repeating ht hc hp h (hc tape hl).lexed)

/-- Statements in braces. A statement that fails leaves nothing, so between the braces there are
statements and skipped nodes only. -/
theorem spells_block {statement : Phrase} {rl rr : Rule} (hi : statement.isChoice = true)
    (hl : tape.Lexed)
    (hleft : Spells rl .plain ((Phrase.mark .leftBrace).read descend o tape))
    (hs : ∀ tape : Tape, tape.Lexed →
      Spells .statement .semicolon (statement.read descend o tape))
    (hright : ∀ tape : Tape, tape.Lexed →
      Spells rr .plain ((Phrase.mark .rightBrace).read descend o tape)) :
    Spells (.seq [rl, .statements, rr]) .plain
      ((Phrase.seq [.mark .leftBrace, .statements true statement, .mark .rightBrace]).read descend
        o tape) := by
  have hstatement : SpellsStatements _ :=
    ⟨fun _ => hd.conserves_phrase o statement, hs, fun _ hl hf => hd.silent_phrase hi o hl hf⟩
  have hinside := (hd.conserves_phrase o (.mark .leftBrace) hl).lexed
  have hbehind := (hd.conserves_phrase o (.statements true statement) hinside).lexed
  exact .andThen hleft
    (.andThen (.of_spelt (hstatement.statements _ _ _ hinside)) (hright _ hbehind))

/-- Further elements behind one that may end with a type that is none. Behind such a type the loop
does not begin, and where an element of the loop is one, the loop ends with it. -/
theorem spells_further {first element : Phrase} {m : Mark} {tag : DataTag} {r r' rs : Rule}
    (hm : ∀ t : Token, t.isMark m = true → t.isOfType = false)
    (hs : Token.Spells (Token.isMark m) tag rs) (hl : tape.Lexed)
    (h₁ : Spells r .type (first.read descend o tape))
    (h₂ : ∀ tape : Tape, tape.Lexed → Spells r' .type (element.read descend o tape)) :
    Spells (r * .many (rs * r')) .type
      ((Phrase.andThen first (Phrase.further m tag element)).read descend o tape) := by
  have hbody (tape : Tape) (hl : tape.Lexed)
      (hg : significant (Token.isMark m) tape.ahead = true) :
      Spells (rs * r') .type
        ((Phrase.seq [.trivia, .take tag, element]).read descend o tape) := by
    have hnext : next (Token.isMark m) tape.takeTrivia.2.ahead = true := by
      rw [Tape.ahead_takeTrivia]
      exact (next_dropWhile _ _).trans hg
    have hl' := (hd.conserves_phrase o .trivia hl).lexed
    exact .behind (spelt_trivia tape) (.andThen (.of_spelt (spelt_take hl' hs hnext))
      (h₂ _ (hd.conserves_phrase o (.take tag) hl').lexed))
  intro hf
  obtain ⟨hf₁, hf₂, heq⟩ := andThen_succeeds hf
  obtain ⟨hmany, hstop⟩ := spells_furtherTypes rfl
    (fun _ => hd.conserves_phrase o (.seq [.trivia, .take tag, element]))
    (fun _ => hd.progress_phrase o rfl) hbody (fun ts => mark_of_typeGoesOn hm)
    (hd.conserves_phrase o first hl).lexed
  rcases h₁ hf₁ with hs₁ | ⟨-, hgo⟩
  · exact Spells.andThen (.of_spelt hs₁) hmany hf
  · refine .inr ⟨rfl, ?_⟩
    show typeGoesOn ((first.read descend o tape).andThen _).tape.ahead = true
    rw [heq, tape_behind]
    show typeGoesOn (Attempt.repeating _ _ _ _).tape.ahead = true
    rw [hstop hgo]
    exact hgo

/-- Behind a type that is none the rest fails, so the type was one. -/
theorem spells_refusing {first second : Phrase} {r r' : Rule} {e : Ending} (hl : tape.Lexed)
    (h₁ : Spells r .type (first.read descend o tape)) (hs : second.Refuses)
    (h₂ : ∀ tape : Tape, tape.Lexed → Spells r' e (second.read descend o tape)) :
    Spells (r * r') e ((Phrase.andThen first second).read descend o tape) := by
  intro hf
  have hl' := (hd.conserves_phrase o first hl).lexed
  obtain ⟨hf₁, hf₂, -⟩ := andThen_succeeds hf
  rcases h₁ hf₁ with hs₁ | ⟨-, hgo⟩
  · exact Spells.andThen (.of_spelt hs₁) (h₂ _ hl') hf
  · exact absurd hf₂ (hd.refuses_phrase hs o hl' hgo)

/-- **A phrase leaves behind what it spells.** The induction is on the spelling, and the tape varies
in it: a rule about two phrases meets the second one behind the first, where of the look ahead only
that is known which the rule itself hands on. -/
theorem sound {given : Lookahead} {q : Phrase} {r : Rule} {e : Ending}
    (h : Phrase.Spells given q r e) (hl : tape.Lexed) (hg : given tape.ahead = true) :
    Spells r e (q.read descend o tape) := by
  induction h generalizing tape with
  | empty h => exact .of_spelt (.nil h)
  | take hp h => exact .of_spelt (spelt_take hl h hg)
  | takeSemicolon h => exact .of_spelt (spelt_take hl h hg)
  | @takeFirst P R tag q r r' e hp h hq ih =>
    have hnext : next R (tape.take tag).2.ahead = true := by
      rw [Tape.ahead_take]
      exact next_tail_of_pair hg
    exact .andThen (.of_spelt (spelt_take hl h (next_of_pair hg)))
      (ih (hd.conserves_phrase o (.take tag) hl).lexed hnext)
  | @trivia given behind q r e hg' hq ih =>
    have hnext : behind tape.takeTrivia.2.ahead = true := by
      rw [Tape.ahead_takeTrivia]
      exact hg' _ hg
    exact .behind (spelt_trivia tape) (ih (hd.conserves_phrase o .trivia hl).lexed hnext)
  | node h => exact hd.spells_node o h hl hg
  | andThen h₁ h₂ ih₁ ih₂ =>
    exact .andThen (ih₁ hl hg) (ih₂ (hd.conserves_phrase o _ hl).lexed rfl)
  | choose hy hn ihy ihn =>
    rw [Phrase.read]
    split <;> rename_i ht
    · exact ihy hl (by simp [hg, ht])
    · exact ihn hl (by simp [hg, ht])
  -- From here on a form of phrase has its own lemma where more is used than its parts.
  | bracketType hm ha => exact hd.spells_bracketType o hm ha hl hg
  | repeating ht hb h ih =>
    exact spells_repeating ht (fun _ => hd.conserves_phrase o _)
      (fun _ => hd.progress_phrase o hb) (fun _ hl hg => ih hl hg) hl
  | repeatingSeen ht hb h ih =>
    exact hd.spells_repeatingSeen o ht hb (fun _ hl hg => ih hl hg) hl hg
  | spacedCalls hy hn ihy ihn =>
    rw [Phrase.read]
    split
    · exact ihy hl hg
    · exact ihn hl hg
  | expected wanted r => exact .of_failure rfl
  | orphan r => exact .of_failure rfl
  | block hb hi ht hs hr ih₁ ih₂ ih₃ =>
    exact hd.spells_block o hi hl (ih₁ hl rfl) (fun _ hl => ih₂ hl rfl) (fun _ hl => ih₃ hl rfl)
  | hexDigits h => exact spells_hexDigits h hl
  | foreign =>
    cases ha : tape.ahead with
    | nil => rw [ha] at hg; cases hg
    | cons t ts => exact .of_spelt (spelt_foreign ha (by rwa [ha] at hg))
  | furtherTypes hm hp h h₁ h₂ ih₁ ih₂ =>
    exact hd.spells_further o hm h hl (ih₁ hl hg) fun _ hl => ih₂ hl rfl
  | refusing h₁ hs h₂ ih₁ ih₂ =>
    exact hd.spells_refusing o hl (ih₁ hl hg) hs fun _ hl => ih₂ hl rfl
  -- The look ahead excludes what is in front.
  | impossible hg' q r e => rw [hg'] at hg; cases hg
  | under h hs ih => exact ih hl (hs _ hg)
  | weaken h hr ih => exact (ih hl hg).weaken hr
  | loosen h e ih => exact fun hf => .inl ((ih hl hg).spelt hf)

end Derives

/-! ## Placeholders -/

theorem silent_mark (m : Mark) (o : Options) {tape : Tape} :
    ((Phrase.mark m).read descend o tape).failure ≠ none →
      ((Phrase.mark m).read descend o tape).trace.Spelt 1 := by
  have hread : (Phrase.mark m).read descend o tape =
      ((Phrase.choose (next (Token.isMark m)) (.take .punctuation) (.expected (.mark m))).read
        descend o tape.takeTrivia.2).behind tape.takeTrivia.1 := andThen_of_none rfl _
  rw [hread, failure_behind, Phrase.read]
  intro hf
  split at hf <;> rename_i ht
  · exact absurd rfl hf
  · rw [if_neg ht]
    exact (⟨rfl, trivial⟩ : Trace.nil.Spelt 1).behind (spelt_trivia tape)

variable {P : Token → Bool} {tag : DataTag} {o : Options} {r : Rule} {tape : Tape}

/-- Behind a token that was taken: what is left there, and the token in front of it. A placeholder
that fails has at least its sign. -/
theorem spelt_failing_take (hs : Token.Spells P tag r) {q : Phrase} {r' : Rule} (h : tape.Lexed)
    (hg : next P tape.ahead = true)
    (hq : (q.read descend o (tape.take tag).2).failure ≠ none →
      (q.read descend o (tape.take tag).2).trace.Spelt r') :
    ((Phrase.andThen (.take tag) q).read descend o tape).failure ≠ none →
      ((Phrase.andThen (.take tag) q).read descend o tape).trace.Spelt (r * r') := by
  have hread : (Phrase.andThen (.take tag) q).read descend o tape =
      (q.read descend o (tape.take tag).2).behind (tape.take tag).1 := andThen_of_none rfl _
  rw [hread, failure_behind]
  exact fun hf => (spelt_take h hs hg).append (hq hf)

/-- A placeholder without braces: a sign and a path. -/
theorem Derives.spells_named (hd : Derives descend) (o : Options) :
    SpellsPlaceholders false
      ((Phrase.seq [.take .punctuation, .node .valuePath]).read descend o) := by
  intro p cs reach _
  have hl : (Tape.ofText p ('%' :: cs) reach).Lexed := Tape.lexed_ofText _ _ _
  have hnext : next (Token.isMark .percent) (Tape.ofText p ('%' :: cs) reach).ahead = true := by
    rw [Tape.ahead_ofText, Token.readAll_percent]
    rfl
  have hsign : Token.Spells (Token.isMark .percent) .punctuation (.mark .percent) :=
    .sign fun _ => rfl
  have hphrase : Phrase.Spells (next (Token.isMark .percent))
      (.seq [.take .punctuation, .node .valuePath]) (.mark .percent * .node .valuePath) .plain :=
    .andThen (.take (Token.inner_isMark nofun) hsign) (.onlyNode rfl rfl)
  refine ⟨fun hf => ?_, fun hf => ⟨.mark .percent * 1, ?_, ?_⟩⟩
  · refine ((hd.sound o hphrase hl hnext).spelt hf).weaken ?_
    exact fun _ h => Rule.mem_left (Rule.mem_mono le_rfl (fun _ => Rule.mem_left) h)
  · have hl' := (Attempt.conserves.take .punctuation _ hl).lexed
    exact spelt_failing_take hsign hl hnext (hd.silent o _ _ hl') hf
  · intro w h
    rw [RegularExpression.matches'_mul, RegularExpression.matches'_mul,
      RegularExpression.matches'_epsilon, mul_one] at h
    exact Rule.mem_left (Rule.mem_mono le_rfl (fun _ => Rule.mem_right) h)

/-- An expression in braces that fails leaves the expression, if it is there. -/
theorem Derives.spelt_failing_expression (hd : Derives descend) (o : Options) {tape : Tape}
    (h : tape.Lexed) :
    ((Phrase.andThen (.node .expression) (.mark .rightBrace)).read descend o tape).failure ≠ none →
      ((Phrase.andThen (.node .expression) (.mark .rightBrace)).read descend o tape).trace.Spelt
        (.opt (.node .expression)) := by
  show (Attempt.andThen (descend o .expression tape) _).failure ≠ none →
    (Attempt.andThen (descend o .expression tape) _).trace.Spelt _
  cases hf : (descend o .expression tape).failure with
  | some f =>
    rw [andThen_of_some hf]
    exact fun hne => (hd.silent o _ tape h hne).weaken fun _ => Rule.mem_left
  | none =>
    rw [andThen_of_none hf, failure_behind]
    have hs : (descend o .expression tape).trace.Spelt (.node .expression) :=
      (hd.spells o .expression tape h rfl).spelt hf
    exact fun hne => (hs.before (silent_mark _ o hne)).weaken fun _ => Rule.mem_right

/-- A placeholder in braces: an expression between them. What is left of one that fails is the two
signs, and the expression if only the closing brace is missing. -/
theorem Derives.spells_braced (hd : Derives descend) (o : Options) :
    SpellsPlaceholders true ((Phrase.seq [.take .punctuation, .take .punctuation,
      .node .expression, .mark .rightBrace]).read descend o) := by
  intro p cs reach hb
  obtain ⟨cs, rfl⟩ : ∃ rest, cs = '\x7b' :: rest := List.head?_eq_some_iff.1 (hb rfl)
  have hl : (Tape.ofText p ('%' :: '\x7b' :: cs) reach).Lexed := Tape.lexed_ofText _ _ _
  have hpair : pair (Token.isMark .percent) (Token.isMark .leftBrace)
      (Tape.ofText p ('%' :: '\x7b' :: cs) reach).ahead = true := by
    rw [Tape.ahead_ofText, Token.readAll_percent, Token.readAll_leftBrace]
    rfl
  generalize Tape.ofText p ('%' :: '\x7b' :: cs) reach = window at *
  have hnext : next (Token.isMark .leftBrace) (window.take .punctuation).2.ahead = true := by
    rw [Tape.ahead_take]
    exact next_tail_of_pair hpair
  have hsign (m : Mark) : Token.Spells (Token.isMark m) .punctuation (.mark m) := .sign fun _ => rfl
  have hphrase : Phrase.Spells (pair (Token.isMark .percent) (Token.isMark .leftBrace))
      (.seq [.take .punctuation, .take .punctuation, .node .expression, .mark .rightBrace])
      (.mark .percent * (.mark .leftBrace * (.node .expression * .mark .rightBrace))) .plain :=
    .takeFirst (Token.inner_isMark nofun) (hsign _) <|
      .andThen (.take (Token.inner_isMark nofun) (hsign _)) <|
      .andThen (.onlyNode rfl rfl) (.mark nofun)
  -- If it is read as a whole the phrase says what there is. If it fails, a prefix of the phrase
  -- does.
  refine ⟨fun hf => ?_, fun hf =>
    ⟨.mark .percent * (.mark .leftBrace * .opt (.node .expression)), ?_, ?_⟩⟩
  · refine ((hd.sound o hphrase hl hpair).spelt hf).weaken fun _ h => Rule.mem_right ?_
    exact Rule.mem_mono le_rfl (Rule.mem_mono le_rfl fun _ => Rule.mem_left) h
  · have hl' := (Attempt.conserves.take .punctuation _ hl).lexed
    have hl'' := (Attempt.conserves.take .punctuation _ hl').lexed
    refine spelt_failing_take (hsign _) hl (next_of_pair hpair)
      (spelt_failing_take (hsign _) hl' hnext (hd.spelt_failing_expression o hl'')) hf
  · intro w h
    simp only [RegularExpression.matches'_mul, mul_assoc] at h
    exact Rule.mem_right (Rule.mem_mono le_rfl (Rule.mem_mono le_rfl fun _ => Rule.mem_right) h)

/-! ## Constructs -/

/-- Behind something that is seen to have a `|` further on there is the `|`, or something that
goes on with a type. This is where a type with alternatives gets its second one, or is refused by
what follows. -/
theorem typeGoesOn_of_hasBar {ts : List Token} (h : hasBar 0 ts = true)
    (hp : significant (Token.isMark .pipe) ts = false) : typeGoesOn ts = true := by
  rw [← Phrase.hasBar_dropWhile] at h
  rw [← next_dropWhile] at hp
  rw [typeGoesOn, ← next_dropWhile]
  cases hd : ts.dropWhile Token.isTrivia with
  | nil => rw [hd] at h; cases h
  | cons t rest =>
    have ht : t.isTrivia = false := by
      have := List.head?_dropWhile_not Token.isTrivia ts
      rw [hd] at this
      simpa using this
    rw [hd] at h hp
    have hp : t.isMark .pipe = false := hp
    rw [hasBar.eq_def] at h
    simp only [hp, ht, Bool.false_and, Bool.false_eq_true, if_false, bne_self_eq_false,
      Bool.and_false, Bool.or_false] at h
    show t.isOfType = true
    rw [Token.isOfType]
    -- The first token of the scan is one that goes on with a type, or the scan says no.
    split at h <;> rename_i hopen
    · rw [hopen]
      rfl
    split at h
    · cases h
    split at h <;> rename_i hrest
    · simp only [Bool.or_eq_true] at hrest ⊢
      tauto
    · cases h

theorem repeating_of_not {test : Lookahead} {tape : Tape} (h : test tape.ahead = false)
    (body : Tape → Attempt) (rounds : Nat) :
    repeating test body rounds tape = ofTaken (.nil, tape) := by
  cases rounds with
  | zero => rfl
  | succ n => rw [repeating, if_neg (by simp [h])]

/-- A type with alternatives. Its first look has seen a bar on its own level, and behind the first
type there is the bar, or the type is refused. -/
theorem spells_multipleType (n : Nat) (hd : Derives (Production.read n)) (o : Options) {tape : Tape}
    (h : tape.Lexed) (hg : isMultipleType tape.ahead = true) :
    Spells NodeKind.multipleType.children .type
      (Production.multipleType.body.read (Production.read n) o tape) := by
  intro hf
  obtain ⟨hf₁, hf₂, heq⟩ := andThen_succeeds hf
  have hc : Conserves tape (Phrase.singleType.read (Production.read n) o tape) :=
    hd.conserves_phrase o _ h
  have hfirst := (hd.sound o (@Phrase.spells_singleType Phrase.unseen) h rfl).spelt hf₁
  have hbar := hasBar_singleType n o hf₁ hg
  cases hs : significant (Token.isMark .pipe)
    (Phrase.singleType.read (Production.read n) o tape).tape.ahead with
  | true =>
    have hloop : Phrase.Spells (significant (Token.isMark .pipe))
        (Phrase.further .pipe .operator Phrase.singleType)
        (.oneOrMore (.operator .pipe * .singleType)) .plain :=
      .repeatingSeen rfl rfl (.takeSignificant (Token.inner_isMark nofun) (.sign fun _ => rfl)
        Phrase.spells_singleType)
    refine .inl ?_
    rw [Production.body, Phrase.read, heq]
    exact hfirst.append ((hd.sound o hloop hc.lexed hs).spelt hf₂)
  | false =>
    refine .inr ⟨rfl, ?_⟩
    rw [Production.body, Phrase.read, heq, tape_behind]
    show typeGoesOn (Attempt.repeating _ _ _ _).tape.ahead = true
    rw [repeating_of_not hs]
    exact typeGoesOn_of_hasBar hbar hs

/-- The children of a construct, read from what its callers have seen of it. It is
`Production.spells_body` made into a fact about readings; a type with alternatives and a quoted
text are treated apart. -/
theorem spells_body (n : Nat) (hd : Derives (Production.read n)) (o : Options) (p : Production)
    {tape : Tape} (h : tape.Lexed) (hg : p.seen tape.ahead = true) :
    Spells p.kind.children p.ending (p.body.read (Production.read n) o tape) := by
  by_cases hs : p = .string
  · subst hs
    refine spells_quoted (fun isBraced window hw => ?_) (fun isBraced => ?_) h
    · split
      · exact hd.conserves_phrase _ _ hw
      · exact hd.conserves_phrase _ _ hw
    · cases isBraced with
      | true => exact hd.spells_braced _
      | false => exact hd.spells_named _
  by_cases hm : p = .multipleType
  · subst hm
    exact spells_multipleType n hd o h hg
  have hspelled : p.spelled = p.kind.children := by cases p <;> first | rfl | exact absurd rfl hm
  exact hspelled ▸ hd.sound o (Production.spells_body hs) h hg

/-- A construct as a node. -/
theorem spells_enter (p : Production) (o : Options) {inside : Tape → Attempt}
    (hi : ∀ tape, tape.Lexed → p.seen tape.ahead = true →
      Spells p.kind.children p.ending (inside tape)) {tape : Tape} (h : tape.Lexed)
    (hg : p.seen (p.front tape.ahead) = true) :
    Spells (.node p.kind) p.ending (p.enter o inside tape) := by
  have hframed {tape : Tape} (h : tape.Lexed) (hg : p.seen tape.ahead = true) :
      Spells (.node p.kind) p.ending ((inside tape).framed o.file p.kind tape.place) := by
    intro hf
    rw [failure_framed] at hf
    rcases hi tape h hg hf with hs | ⟨he, hgo⟩
    · refine .inl ?_
      rw [framed, hf]
      exact .node hs _
    · exact .inr ⟨he, by rw [tape_framed]; exact hgo⟩
  rw [Production.front] at hg
  rw [Production.enter_eq]
  split <;> rename_i hk
  · exact hframed h (by rwa [if_pos hk] at hg)
  · rw [if_neg hk] at hg
    refine .behind (spelt_trivia tape) (hframed (Attempt.conserves.takeTrivia tape h).lexed ?_)
    rw [tape_ofTaken, Tape.ahead_takeTrivia]
    exact hg

theorem silent_enter (p : Production) (o : Options) (inside : Tape → Attempt) (tape : Tape)
    (hf : (p.enter o inside tape).failure ≠ none) : (p.enter o inside tape).trace.Spelt 1 := by
  have hframed (tape : Tape) (hf : (inside tape).failure ≠ none) :
      ((inside tape).framed o.file p.kind tape.place).trace.Spelt 1 := by
    obtain ⟨f, hf⟩ := Option.ne_none_iff_exists'.1 hf
    rw [framed, hf]
    exact .dropped _ _
  rw [Production.enter_eq] at hf ⊢
  split at hf <;> rename_i hk
  · rw [if_pos hk]
    rw [failure_framed] at hf
    exact hframed tape hf
  · rw [if_neg hk]
    rw [andThen_of_none rfl, failure_behind, failure_framed] at hf
    exact (hframed _ hf).behind (spelt_trivia tape)

/-- **Every construct leaves a derived tree behind, or nothing**, however deep nodes may nest.
`Document.Derivation` applies it to the root. -/
theorem derives_read (n : Nat) : Derives (Production.read n) := by
  have hblock (o : Options) {inside : Tape → Attempt} (hi : ∀ tape, tape.Lexed →
      typeGoesOn tape.ahead = true → (inside tape).failure ≠ none) (tape : Tape) (h : tape.Lexed)
      (hg : typeGoesOn tape.ahead = true) :
      (Production.block.enter o inside tape).failure ≠ none := by
    have hl : tape.takeTrivia.2.Lexed := (Attempt.conserves.takeTrivia tape h).lexed
    rw [Production.enter_eq, if_neg (by nofun), andThen_of_none rfl, failure_behind,
      failure_framed]
    refine hi _ hl ?_
    rw [tape_ofTaken, Tape.ahead_takeTrivia, typeGoesOn, ← next_dropWhile]
    show next Token.isOfType ((tape.ahead.dropWhile Token.isTrivia).dropWhile Token.isTrivia) = true
    rw [List.dropWhile_idempotent, next_dropWhile]
    exact hg
  -- The induction is on the levels. A construct without a level left fails at once, so it has
  -- nothing to spell.
  induction n with
  | zero =>
    refine ⟨conserves.read 0, fun o p tape hp h => progress_read 0 o hp h, ?_, ?_, ?_⟩
    · exact fun o p tape h hg => spells_enter p o (fun _ _ _ => .of_failure rfl) h hg
    · exact fun o p tape _ hf => silent_enter p o _ tape hf
    · exact fun o tape h hg => hblock o (fun _ _ _ => Option.some_ne_none _) tape h hg
  | succ n ih =>
    refine ⟨conserves.read (n + 1), fun o p tape hp h => progress_read (n + 1) o hp h, ?_, ?_, ?_⟩
    · exact fun o p tape h hg => spells_enter p o (fun _ => spells_body n ih o p) h hg
    · exact fun o p tape _ hf => silent_enter p o _ tape hf
    · refine fun o tape h hg => hblock o (fun tape h hg hf => ?_) tape h hg
      have hbrace (t : Token) (ht : t.isMark .leftBrace = true) : t.isOfType = false := by
        simp [Token.isOfType, Token.isMark, Token.isName, Token.kind_of_isMark ht]
      exact failure_mark .leftBrace o (mark_of_typeGoesOn hbrace hg) (andThen_succeeds hf).1

end Attempt

end Heddle
