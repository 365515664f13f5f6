import Heddle.Proofs.Reading.Walk

/-!
# Every block ends at a brace that was counted

The walk of a whole construct is put together along its rule. The conditions that are proved of
the rules (`Production.wp_body`) say which brackets a rule has open at each of its steps, so a step
that takes a brace is known to take the one that is due; a construct that is given up has closed
nothing that it did not open.

Statements inside a block begin with no brace of their own and end with none, whether they succeed
or fail: a statement takes all its tokens through constructs, and the failed construct has put the
braces that it leaves open on the account of `Trace.abandoned`.
-/

set_option autoImplicit false

namespace Heddle

namespace Attempt

open Tape

/-- What the reading of a phrase relies on: what is known of the constructs inside it. `walked` is
what is to be proved; the others are there since the steps need them of what lies in between. -/
structure Tallied (descend : Options → Production → Tape → Attempt) : Prop where
  conserves : ∀ o p tape, tape.Lexed → Conserves tape (descend o p tape)
  progress : ∀ o p tape, p.takes = true → tape.Lexed → Progress tape (descend o p tape)
  walked : ∀ o p tape, tape.Lexed → p.opening (p.front tape.ahead) = true →
    Walked tape 0 (descend o p tape) 0
  direct : ∀ o p tape mark, (descend o p tape).trace.direct mark = 0

namespace Tallied

variable {descend : Options → Production → Tape → Attempt} (hd : Tallied descend)
include hd

/-- What takes everything through constructs reports no brace itself. -/
theorem direct_phrase {q : Phrase} (hq : q.indirect = true) (o : Options) (tape : Tape)
    (mark : String) : (q.read descend o tape).trace.direct mark = 0 := by
  induction q generalizing tape with
  | empty | expected _ | orphan => rfl
  | trivia => exact (Walked.silent_takeTrivia tape).1 mark
  | node p => exact hd.direct o p tape mark
  | andThen first second ih₁ ih₂ =>
    obtain ⟨h₁, h₂⟩ := Bool.and_eq_true_iff.1 hq
    rw [Phrase.read]
    cases hf : (first.read descend o tape).failure with
    | some f =>
      rw [andThen_of_some hf]
      exact ih₁ h₁ tape
    | none =>
      rw [andThen_of_none hf, trace_behind, Trace.direct_append, ih₁ h₁, ih₂ h₂]
  | choose test yes no ihy ihn =>
    obtain ⟨hy, hn⟩ := Bool.and_eq_true_iff.1 hq
    rw [Phrase.read]
    split
    · exact ihy hy tape
    · exact ihn hn tape
  | spacedCalls yes no ihy ihn =>
    obtain ⟨hy, hn⟩ := Bool.and_eq_true_iff.1 hq
    rw [Phrase.read]
    split
    · exact ihy hy tape
    · exact ihn hn tape
  -- Forms that could take a brace themselves are not indirect.
  | take | repeating | statements | quoted | hexDigits | foreign => cases hq

theorem conserves_phrase (q : Phrase) (o : Options) {tape : Tape} (h : tape.Lexed) :
    Conserves tape (q.read descend o tape) :=
  Attempt.conserves.phrase hd.conserves q o tape h

/-- The statements of a block close all they open or abandon it. A failed statement leaves braces
open that nobody will close, and these are counted as abandoned when its node is dropped. -/
theorem walked_statements {statement : Phrase} (ht : statement.takes = true)
    (hi : statement.indirect = true) {o : Options}
    (hw : ∀ tape : Tape, tape.Lexed → ∃ m, Walked tape 0 (statement.read descend o tape) m ∧
      ((statement.read descend o tape).failure = none → m = 0))
    {tape : Tape} (h : tape.Lexed) :
    Walked tape 0 ((Phrase.statements true statement).read descend o tape) 0 := by
  have hc (tape : Tape) (h : tape.Lexed) := hd.conserves_phrase statement o h
  -- That the text is conserved goes along, since a walk behind another one needs it.
  refine (statements_rule (P := fun tape a => Conserves tape a ∧ Walked tape 0 a 0) hc
    (fun tape h => progress_phrase hd.conserves hd.progress statement ht o h)
    (fun tape h _ => ⟨Attempt.conserves.takeTrivia tape h, .trivia h 0⟩) ?_ ?_ h
    (Nat.le_refl _)).2
  · intro tape b _ hb
    cases hb
  · intro tape b h _ _ r ⟨hcb, hwb⟩
    have htrivia := Attempt.conserves.takeTrivia tape h
    have hl := htrivia.lexed
    have hcr : Conserves tape.takeTrivia.2 r := (hc _ hl).recovered o.file true
    have hwr : Walked tape.takeTrivia.2 0 r 0 := by
      obtain ⟨m, hm, hz⟩ := hw _ hl
      show Walked _ 0 (recovered o.file true _) 0
      unfold Attempt.recovered
      split <;> rename_i hf
      · -- A statement that was given up has no brace open, since it took none itself.
        have hzero := hm.direct
        rw [hd.direct_phrase hi, hd.direct_phrase hi] at hzero
        obtain rfl : m = 0 := hzero
        have hca := hc _ hl
        exact hm.behind (.recover hca.lexed o.file _) hca (.recover hca.lexed o.file true _)
      · obtain rfl := hz hf
        exact hm
    have hcrb := hcr.behind hcb
    exact ⟨htrivia.behind hcrb,
      (Walked.trivia h 0).behind (hwr.behind hwb hcr hcb) htrivia hcrb⟩

/-- A loop whose rounds leave the hold as it is. A round that fails may leave any hold behind, and
then so does the loop. -/
theorem walked_repeating {test : Lookahead} {body : Phrase} (ht : test [] = false)
    (hb : body.takes = true) {o : Options} {g : Hold} {Q : Hold → List Token → Prop}
    (hround : ∀ tape : Tape, tape.Lexed → test tape.ahead = true →
      ∃ g', Walked tape (depth g.opened) (body.read descend o tape) (depth g'.opened) ∧
        ((body.read descend o tape).failure = none → g' = g))
    (hQ : ∀ ts, test ts = false → Q g ts) {tape : Tape} (h : tape.Lexed) :
    ∃ g', Walked tape (depth g.opened) ((Phrase.repeating test body).read descend o tape)
        (depth g'.opened) ∧
      (((Phrase.repeating test body).read descend o tape).failure = none →
        Q g' ((Phrase.repeating test body).read descend o tape).tape.ahead) := by
  have hc (tape : Tape) (h : tape.Lexed) := hd.conserves_phrase body o h
  refine (repeating_rule (P := fun tape a => Conserves tape a ∧ ∃ g',
      Walked tape (depth g.opened) a (depth g'.opened) ∧
        (a.failure = none → Q g' a.tape.ahead)) ht hc
    (fun tape h => progress_phrase hd.conserves hd.progress body hb o h) ?_ ?_ ?_ h
    (Nat.le_refl _)).2
  · intro tape h hn
    exact ⟨.nothing h, g, .nothing tape _, fun _ => hQ _ hn⟩
  · intro tape f h hy hf
    obtain ⟨g', hw', -⟩ := hround tape h hy
    exact ⟨hc tape h, g', hw', fun hn => by rw [hf] at hn; cases hn⟩
  · rintro tape b h hy hf ⟨hcb, g', hwb, hQb⟩
    obtain ⟨g₁, hw₁, hg₁⟩ := hround tape h hy
    obtain rfl := hg₁ hf
    exact ⟨(hc tape h).behind hcb, g', hw₁.behind hwb (hc tape h) hcb, hQb⟩

/-- **The braces of a phrase are those that its condition says are open.** The hold behind the
phrase is found along with the walk, since a choice may end in different holds. -/
theorem walked_phrase (q : Phrase) (o : Options) {tape : Tape} (h : tape.Lexed) {g : Hold}
    {Q : Hold → List Token → Prop} (hw : q.wp Q g tape.ahead) :
    ∃ g', Walked tape (depth g.opened) (q.read descend o tape) (depth g'.opened) ∧
      ((q.read descend o tape).failure = none → Q g' (q.read descend o tape).tape.ahead) := by
  -- The condition is followed along the phrase. A failed phrase still gets a hold, the last one
  -- that was reached: the braces it leaves open are abandoned by the construct around it.
  induction q generalizing tape g Q with
  | empty => exact ⟨g, .nothing tape _, fun _ => hw⟩
  | take tag =>
    obtain ⟨t, rest, ha, g', hg, hQ⟩ := hw
    refine ⟨g', .token h ha hg, fun _ => ?_⟩
    show Q g' (tape.take tag).2.ahead
    rw [take_of_cons tag ha]
    exact hQ
  | trivia =>
    refine ⟨g, .trivia h _, fun _ => ?_⟩
    show Q g tape.takeTrivia.2.ahead
    rw [ahead_takeTrivia]
    exact hw.2
  | node p =>
    obtain ⟨-, ho, hQ⟩ := hw
    refine ⟨⟨g.opened, p.terminated⟩, ?_, fun _ => hQ _⟩
    have hp := (hd.walked o p tape h ho).raise (depth g.opened)
    rw [Nat.zero_add] at hp
    exact hp
  | andThen first second ih₁ ih₂ =>
    obtain ⟨g₁, hw₁, hQ₁⟩ := ih₁ h hw
    have hc₁ := hd.conserves_phrase first o h
    rw [Phrase.read]
    cases hf : (first.read descend o tape).failure with
    | some f =>
      rw [andThen_of_some hf]
      exact ⟨g₁, hw₁, fun hn => by rw [hf] at hn; cases hn⟩
    | none =>
      rw [andThen_of_none hf]
      obtain ⟨g₂, hw₂, hQ₂⟩ := ih₂ hc₁.lexed (hQ₁ hf)
      exact ⟨g₂, hw₁.behind hw₂ hc₁ (hd.conserves_phrase second o hc₁.lexed), hQ₂⟩
  | choose test yes no ihy ihn =>
    obtain ⟨-, hy, hn⟩ := hw
    rw [Phrase.read]
    split <;> rename_i ht
    · exact ihy h (hy ht)
    · exact ihn h (hn (Bool.eq_false_iff.2 ht))
  -- The hold is the same in front of each round, so the depth of the walk is, too.
  | repeating test body ih =>
    obtain ⟨-, ht, hb, hagain, hQ⟩ := hw
    exact hd.walked_repeating ht hb (fun tape h hy => ih h (hagain _ hy)) hQ h
  | spacedCalls yes no ihy ihn =>
    obtain ⟨hy, hn⟩ := hw
    rw [Phrase.read]
    split
    · exact ihy h hy
    · exact ihn h hn
  | expected wanted => exact ⟨g, .fail _ tape _, fun hn => absurd hn (Option.some_ne_none _)⟩
  | orphan => exact ⟨g, .fail _ tape _, fun hn => absurd hn (Option.some_ne_none _)⟩
  -- A list of statements is walked from depth zero and raised to the depth it stands at.
  | statements inBlock statement ih =>
    obtain ⟨rfl, -, ht, hi, hs, hQ⟩ := hw
    refine ⟨⟨g.opened, true⟩, ?_, fun _ => hQ _⟩
    have hall := (hd.walked_statements ht hi (o := o) (fun tape h => ?_) h).raise (depth g.opened)
    · rw [Nat.zero_add] at hall
      exact hall
    · obtain ⟨g', hw', hg'⟩ := ih h (hs tape.ahead)
      exact ⟨depth g'.opened, hw', fun hf => by rw [hg' hf]; rfl⟩
  | quoted => exact hw.elim
  | hexDigits => exact ⟨⟨g.opened, false⟩, .hexDigits h _, fun _ => hw _⟩
  | foreign =>
    obtain ⟨t, rest, ha, hf, hQ⟩ := hw
    refine ⟨⟨g.opened, false⟩, .foreign h _, fun hn => ?_⟩
    show Q _ (Attempt.foreign tape).tape.ahead
    rw [ahead_foreign ha hf]
    exact hQ

/-- A statement leaves no brace open that it did not abandon. -/
theorem walked_statement (o : Options) (tape : Tape) (h : tape.Lexed) :
    ∃ m, Walked tape 0 (Phrase.statement.read descend o tape) m ∧
      ((Phrase.statement.read descend o tape).failure = none → m = 0) := by
  obtain ⟨g, hg, hQ⟩ := hd.walked_phrase .statement o h (Phrase.wp_statement _)
  exact ⟨depth g.opened, hg, fun hf => by rw [hQ hf]; rfl⟩

/-! ### Blocks -/

omit hd in
/-- The reading of a brace takes it, and nothing but trivia with it. -/
theorem exists_of_mark {m : Mark} {o : Options} {tape : Tape} (h : tape.Lexed)
    (hf : ((Phrase.mark m).read descend o tape).failure = none) :
    ∃ t, t.isMark m = true ∧
      Uses tape (braces [t]) ((Phrase.mark m).read descend o tape).tape ∧
      ((Phrase.mark m).read descend o tape).tape.reach =
        ((Phrase.mark m).read descend o tape).tape.place.byte ∧
      ((Phrase.mark m).read descend o tape).trace.abandoned = 0 := by
  have hl : tape.takeTrivia.2.Lexed := (Attempt.conserves.takeTrivia tape h).lexed
  have hread : (Phrase.mark m).read descend o tape =
      (if Lookahead.next (Token.isMark m) tape.takeTrivia.2.ahead
        then ofTaken (tape.takeTrivia.2.take .punctuation)
        else fail (tape.takeTrivia.2.missing (.mark m)) tape.takeTrivia.2).behind
          tape.takeTrivia.1 := rfl
  rw [hread] at hf ⊢
  split at hf <;> rename_i hn
  · obtain ⟨t, ts, ha, ht⟩ := Lookahead.exists_of_next hn
    have hk : t.kind = .mark m := beq_iff_eq.1 ht
    have hu := (Walked.uses_takeTrivia h).trans (hl.uses_tail ha t.stop)
      (by rw [hl.place_tail ha, Position.byte_past]; exact Nat.le_add_right _ _)
    rw [List.nil_append] at hu
    rw [if_pos hn, take_of_cons _ ha, hk]
    refine ⟨t, ht, hu, ?_, ?_⟩
    · show t.stop = ({ tape.takeTrivia.2 with ahead := ts, reach := t.stop } : Tape).place.byte
      rw [hl.place_tail ha, Position.byte_past, Token.byteSize_chars, ← (hl.cons ha 0).2.1]
      rfl
    · rw [trace_behind, Trace.abandoned_append, (Walked.silent_takeTrivia tape).2.1]
      rfl
  · cases hf

omit hd in
/-- The braces in an extent are those that were used up in it. -/
theorem filter_covers {tape rest : Tape} {used : List Token} (h : tape.Lexed) (hr : rest.Lexed)
    (hu : Uses tape used rest) {l : Location} (ho : l.offset = tape.place.byte)
    (hs : l.stop = rest.place.byte) : (braces tape.ahead).filter l.covers = used := by
  have hmem {t : Token} (ht : t ∈ used) : t ∈ tape.ahead := by
    have hb : t ∈ braces tape.ahead := by
      rw [hu.braces]
      exact List.mem_append_left _ ht
    exact (List.mem_filter.1 hb).1
  have hin : used.filter l.covers = used := by
    apply List.filter_eq_self.2
    intro t ht
    have hle := h.byte_le (hmem ht)
    have hlt := hu.behind t ht
    rw [Location.covers, ho, hs, decide_eq_true hle, decide_eq_true hlt]
    rfl
  have hout : (braces rest.ahead).filter l.covers = [] := by
    apply List.filter_eq_nil_iff.2
    intro t ht hc
    have hle := hr.byte_le (List.mem_filter.1 ht).1
    have hlt := of_decide_eq_true (Bool.and_eq_true_iff.1 hc).2
    omega
  rw [hu.braces, List.filter_append, hin, hout, List.append_nil]

/-- **The inside of a block that is finished**: the braces in its extent are one that opens, one
that closes, and between them as many more that open as were abandoned. The three phrases of the
rule of blocks are its three parts. -/
theorem grouped_block {o : Options} {tape : Tape} (h : tape.Lexed)
    (hf : (Production.block.body.read descend o tape).failure = none) :
    ((Production.block.body.read descend o tape).trace ++ .ofNote (.location
      ((Production.block.body.read descend o tape).tape.extent o.file tape.place))).Grouped
      tape.place.byte (braces tape.ahead) := by
  have hread : Production.block.body.read descend o tape =
      ((Phrase.mark .leftBrace).read descend o tape).andThen fun tape =>
        ((Phrase.statements true .statement).read descend o tape).andThen fun tape =>
          (Phrase.mark .rightBrace).read descend o tape := rfl
  rw [hread] at hf ⊢
  obtain ⟨hfa, hfb, ha⟩ := andThen_succeeds hf
  obtain ⟨-, hfc, hb⟩ := andThen_succeeds hfb
  rw [ha, hb]
  obtain ⟨opening, hopening, hua, -, haa⟩ := exists_of_mark h hfa
  have hca := hd.conserves_phrase (.mark .leftBrace) o h
  -- The three parts are taken one after the other, and each is forgotten but for what it used,
  -- what it abandoned, and that it conserves the text.
  generalize (Phrase.mark .leftBrace).read descend o tape = a at *
  have hwb := hd.walked_statements rfl rfl (o := o) (hd.walked_statement o) hca.lexed
  have hcb := hd.conserves_phrase (.statements true .statement) o hca.lexed
  generalize (Phrase.statements true .statement).read descend o a.tape = b at *
  obtain ⟨closing, hclosing, huc, hreach, hac⟩ := exists_of_mark hcb.lexed hfc
  have hcc := hd.conserves_phrase (.mark .rightBrace) o hcb.lexed
  generalize (Phrase.mark .rightBrace).read descend o b.tape = c at *
  obtain ⟨inner, hub, k, hwalk, hk⟩ := hwb.used
  have hbraces : braces [opening] = [opening] ∧ braces [closing] = [closing] := by
    simp [braces, Token.isBrace, hopening, hclosing]
  -- The closing brace was found, so the statements have left it.
  have hne : b.tape.ahead ≠ [] := by
    intro he
    have hall := huc.braces
    rw [he, hbraces.2] at hall
    cases hall
  have hu := (hua.trans hub hcb.byte_le).trans huc hcc.byte_le
  rw [hbraces.1, hbraces.2] at hu
  have hle := (hca.behind hcb).behind hcc
  refine ⟨_, opening, inner, closing, Trace.location?_append _ _, Nat.le_refl _, ?_, hopening,
    hclosing, ?_⟩
  · apply filter_covers h hcc.lexed hu rfl
    have hbyte := hle.byte_le
    show tape.place.byte + (c.tape.reach - tape.place.byte) = c.tape.place.byte
    rw [hreach]
    exact Nat.add_sub_cancel' hbyte
  · rw [hwalk, hk hne]
    simp only [trace_behind, Trace.abandoned_append, haa, hac, Trace.abandoned_ofNote,
      Nat.zero_add, Nat.add_zero]

end Tallied

/-! ## Constructs -/

/-- Whatever is read inside a quoted text, it does not count. -/
theorem Walked.framed_string {tape : Tape} {a : Attempt} (hu : Uses tape [] a.tape)
    (file : Option String) (start : Position) : Walked tape 0 (a.framed file .string start) 0 := by
  refine plain 0 (by rw [tape_framed]; exact hu) ?_ ?_ ?_ <;>
    (unfold Attempt.framed; split <;> rfl)

theorem uses_quoted {file : Option String} {read : Bool → Tape → Attempt} {tape : Tape}
    (h : tape.Lexed) (hq : Lookahead.next Token.isQuoted tape.ahead = true) :
    Uses tape [] (quoted file read tape).tape := by
  obtain ⟨t, ts, ha, ht⟩ := Lookahead.exists_of_next hq
  have hb : braces [t] = [] := by
    apply braces_eq_nil
    intro u hu
    rw [List.mem_singleton.1 hu]
    cases hk : t.kind with
    | quoted => rfl
    | _ => simp [Token.isQuoted, TokenKind.placeholders?, hk] at ht
  have hu := h.uses_tail ha t.stop
  rw [hb] at hu
  unfold quoted
  rw [ha]
  simp only
  split
  · exact hu
  · exact hu

/-- Trivia in front of a construct changes nothing. All constructs are entered through this, so
the rest is about their rules. -/
theorem Walked.enter {p : Production} {o : Options} {inside : Tape → Attempt} {tape : Tape}
    (h : tape.Lexed) (hc : ∀ tape, tape.Lexed → Conserves tape (inside tape))
    (hi : ∀ start : Tape, start.Lexed → start.ahead = p.front tape.ahead →
      Walked start 0 ((inside start).framed o.file p.kind start.place) 0) :
    Walked tape 0 (p.enter o inside tape) 0 := by
  rw [Production.enter_eq]
  split <;> rename_i hk
  · exact hi tape h (by rw [Production.front, if_pos hk])
  · have htrivia := Attempt.conserves.takeTrivia tape h
    have hl := htrivia.lexed
    refine (Walked.trivia h 0).behind (hi _ hl ?_) htrivia ((hc _ hl).framed _ _ _)
    rw [Production.front, if_neg hk, tape_ofTaken, ahead_takeTrivia]
    rfl

theorem direct_enter (p : Production) (o : Options) (inside : Tape → Attempt) (tape : Tape)
    (mark : String) : (p.enter o inside tape).trace.direct mark = 0 := by
  have hframed (a : Attempt) (start : Position) :
      (a.framed o.file p.kind start).trace.direct mark = 0 := by
    unfold Attempt.framed
    split <;> rfl
  rw [Production.enter_eq]
  split
  · exact hframed _ _
  · rw [andThen_of_none rfl, trace_behind, Trace.direct_append, hframed]
    exact (Walked.silent_takeTrivia tape).1 mark

theorem walked_tooDeep {o : Options} {p : Production} {tape : Tape} (h : tape.Lexed) :
    Walked tape 0 (Production.read 0 o p tape) 0 := by
  apply Walked.enter h (fun tape h => .fail h _)
  intro start _ _
  by_cases hs : p.kind = .string
  · rw [hs]
    exact Walked.framed_string (.nothing start) _ _
  · exact (Walked.fail _ start 0).framed hs nofun nofun

theorem walked_succ {n : Nat} (hd : Tallied (Production.read n)) {o : Options} {p : Production}
    {tape : Tape} (h : tape.Lexed) (ho : p.opening (p.front tape.ahead) = true) :
    Walked tape 0 (Production.read (n + 1) o p tape) 0 := by
  apply Walked.enter h (fun tape h => hd.conserves_phrase _ o h)
  intro start hl ha
  rw [← ha] at ho
  by_cases hs : p = .string
  · obtain rfl := hs
    exact Walked.framed_string (uses_quoted hl ho) _ _
  · obtain ⟨g, hg, hQ⟩ := hd.walked_phrase p.body o hl (Production.wp_body hs ho)
    have hk : p.kind ≠ .string := fun hk => hs (Production.kind_eq_string hk)
    apply Walked.framed hg hk (fun hf => by rw [(hQ hf).1]; rfl)
    intro hf hb
    have hp : p = .block := by cases p <;> first | rfl | cases hb
    obtain rfl := hp
    exact hd.grouped_block hl hf

/-- **Every construct closes all it opens or abandons it**, however deep nodes may nest. The
induction is on the levels; without one left a construct is not begun and opens nothing. -/
theorem tallied (n : Nat) : Tallied (Production.read n) := by
  induction n with
  | zero =>
    exact ⟨fun o p tape => Attempt.conserves.read 0 o p tape,
      fun o p tape hp h => progress_read 0 o hp h, fun o p tape h _ => walked_tooDeep h,
      fun o p tape mark => direct_enter p o _ tape mark⟩
  | succ n ih =>
    exact ⟨fun o p tape => Attempt.conserves.read (n + 1) o p tape,
      fun o p tape hp h => progress_read (n + 1) o hp h, fun o p tape h ho => walked_succ ih h ho,
      fun o p tape mark => direct_enter p o _ tape mark⟩

end Attempt

end Heddle
