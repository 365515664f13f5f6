import Heddle.Proofs.Grammar.Values
import Heddle.Proofs.Reading.Derived
import Heddle.Proofs.Reading.Printed
import Heddle.Proofs.Reading.Runs
import Heddle.Proofs.Reading.Values
import Heddle.Proofs.Token.Detached
import Heddle.Proofs.Token.Exchange

/-!
# Values in front of what closes them

What is read of a value in front of a semicolon is read of it in front of a brace, at any other
place and with fewer levels of nodes, as long as they suffice. **A reading without errors of a text
in front of a semicolon, which leaves at least the semicolon, gives the tree that the phrase reads
back in front of everything that closes the text** (`Production.transfers`).

That the semicolon is left says that nothing in between has reached it, since nothing that was taken
comes back. So each step takes whole tokens of a detached text and leaves a detached text, and no
look that it takes sees what stands behind.
-/

set_option autoImplicit false

namespace Heddle

open Text

variable {o : Options} {n : Nat} {q : Phrase} {u v w : List Char} {f g : Forest}

/-! ## What a phrase takes of a text -/

/-- Of the text `u` the phrase reads the text of `f` as `f`, whatever closes `u`, and leaves `w`.
The text that is left is detached again, so the next phrase can begin on it. -/
structure Phrase.Portion (o : Options) (n : Nat) (q : Phrase) (u : List Char) (f : Forest)
    (w : List Char) : Prop where
  text : u = f.chars ++ w
  height : f.height ≤ n
  left : Detached w
  reads : ∀ more, Delimits more → q.ReadsBack o f (w ++ more)

/-- What the phrase takes of a text in front of a semicolon, it takes whatever closes the text.
The condition that something is left keeps the semicolon itself from being taken. -/
def Phrase.Transfers (o : Options) (n : Nat) (q : Phrase) : Prop :=
  ∀ (u : List Char) (p : Position) (reach : Nat), Detached u →
    (q.read (Production.read n) o (.ofText p (u ++ [';']) reach)).Clean →
    (q.read (Production.read n) o (.ofText p (u ++ [';']) reach)).tape.ahead ≠ [] →
    ∃ f w, q.Portion o n u f w

/-! ## Readers that do not see their place -/

/-- Only a quoted text depends on its place. -/
theorem Lexeme.scan_place {c : Char} (hd : c ≠ '\x22') (hs : c ≠ '\x27') (preferHex : Bool)
    (p q : Position) (cs : List Char) : scan preferHex p c cs = scan preferHex q c cs := by
  simp only [scan, if_neg hd, if_neg hs]

theorem Token.digits?_place {p : Position} {t : Token} {cs rest : List Char}
    (h : digits? p cs = some (t, rest)) (q : Position) :
    digits? q cs = some ({ t with position := q }, rest) := by
  cases cs with
  | nil => cases h
  | cons c cs =>
    rw [digits?_cons] at h
    split at h <;> rename_i hk
    · have hne {d : Char} (hd : isNameStart d = false ∧ isDigit d = false) : c ≠ d := by
        rintro rfl
        rcases Lexeme.head_of_isHexNumber hk with hc | hc
        · exact absurd hc (Bool.eq_false_iff.1 hd.1)
        · exact absurd hc (Bool.eq_false_iff.1 hd.2)
      rw [Lexeme.scan_place (hne (by decide)) (hne (by decide)) true p q] at h hk
      obtain ⟨rfl, rfl⟩ := Prod.mk.inj (Option.some.inj h)
      rw [digits?_cons, if_pos hk]
      rfl
    · cases h

namespace Phrase

open Lookahead

theorem Portion.yields (h : q.Portion o n u f w) {more : List Char} (hm : Delimits more)
    (p : Position) (reach : Nat) :
    (q.read (Production.read n) o (.ofText p (u ++ more) reach)).Yields f (p.past f.chars)
      (w ++ more) := by
  rw [h.text, List.append_assoc]
  exact h.reads more hm n p reach h.height

theorem Portion.andThen {r : Phrase} (hq : q.Portion o n u f v) (hr : r.Portion o n v g w) :
    (q.andThen r).Portion o n u (f ++ g) w where
  text := by rw [hq.text, hr.text, Forest.chars_append, List.append_assoc]
  height := Forest.height_append_le.2 ⟨hq.height, hr.height⟩
  left := hr.left
  reads more hm := by
    refine .andThen ?_ (hr.reads more hm)
    rw [← List.append_assoc, ← hr.text]
    exact hq.reads more hm

/-! ## Single steps -/

/-- What closes a text begins with no trivia. -/
theorem solid_of_delimits {more : List Char} (hm : Delimits more) : Solid more := by
  cases more with
  | nil =>
    intro p
    rw [Token.readAll_nil]
    rfl
  | cons c cs =>
    rcases hm c rfl with rfl | rfl <;> exact solid_cons (by decide) (by decide) cs

/-- A token in the role that it has there. -/
theorem ReadsBack.takeToken {kind : TokenKind} {cs rest : List Char}
    (h : Token.Leads kind cs rest) (tag : DataTag) :
    ReadsBack o (.take tag) (.ofData (kind.role tag) (String.ofList cs)) rest := by
  intro n p reach _
  obtain ⟨reach', htake⟩ := Tape.take_leads h tag p reach
  rw [Forest.chars_ofData, String.toList_ofList, Phrase.read, htake]
  exact .data _ _ _ reach'

/-- A piece of trivia is taken with the trivia behind it. -/
theorem takeTrivia_cons (tape : Tape) {t : Token} {ts : List Token} (ha : tape.ahead = t :: ts)
    (hk : t.kind.isTrivia = true) :
    tape.takeTrivia = (.ofData (t.kind.role .whitespace) t.text ++
      ({ tape with ahead := ts } : Tape).takeTrivia.1,
      ({ tape with ahead := ts } : Tape).takeTrivia.2) := by
  have hrole : (t.kind.role .whitespace).isTrivia = true := by
    cases t.kind <;> rfl
  have htake : tape.take .whitespace =
      (.ofData (t.kind.role .whitespace) t.text, { tape with ahead := ts }) := by
    rw [Tape.take_of_cons .whitespace ha]
    simp only [hrole, if_true]
  have hlength : (tape.ahead.takeWhile (·.kind.isTrivia)).length =
      (ts.takeWhile (·.kind.isTrivia)).length + 1 := by
    rw [ha, List.takeWhile_cons_of_pos (by exact hk), List.length_cons]
  rw [Tape.takeTrivia, hlength, Tape.takeMany_succ, htake]
  rfl

theorem takeTrivia_leads {kind : TokenKind} {cs rest : List Char} (h : Token.Leads kind cs rest)
    (hk : kind.isTrivia = true) (p : Position) (reach : Nat) :
    (Tape.ofText p (cs ++ rest) reach).takeTrivia =
      (.ofData (kind.role .whitespace) (String.ofList cs) ++
        (Tape.ofText (p.past cs) rest reach).takeTrivia.1,
        (Tape.ofText (p.past cs) rest reach).takeTrivia.2) := by
  rw [takeTrivia_cons _ (h p) hk]
  simp only [Tape.ofText, Position.past_append]

theorem ReadsBack.triviaToken {kind : TokenKind} {cs rest : List Char}
    (h : Token.Leads kind cs (f.chars ++ rest)) (hk : kind.isTrivia = true)
    (ht : ReadsBack o .trivia f rest) :
    ReadsBack o .trivia (.data (kind.role .whitespace) (String.ofList cs) f) rest := by
  intro n p reach hn
  have hy := ht n (p.past cs) reach hn
  rw [Phrase.read] at hy
  rw [Forest.chars_data, String.toList_ofList, List.append_assoc, Phrase.read,
    takeTrivia_leads h hk, Position.past_append]
  exact @Attempt.Yields.behind _ (.ofData (kind.role .whitespace) (String.ofList cs)) _ _ _
    (.ofData (kind.role .whitespace) (String.ofList cs)) rfl rfl hy

end Phrase

/-- Nothing but blanks and comments. -/
def Forest.isTrivia : Forest → Bool
  | .nil => true
  | .data tag _ next => tag.isTrivia && next.isTrivia
  | .node .. => false

theorem Forest.height_of_isTrivia {f : Forest} (h : f.isTrivia = true) : f.height = 0 := by
  induction f with
  | nil => rfl
  | data tag text next ih => exact ih (Bool.and_eq_true_iff.1 h).2
  | node => cases h

namespace Phrase

open Lookahead

/-- **The trivia in front of a text**, and what begins with no trivia behind it. The induction is
on the length of the text, since a comment may be of any length. -/
theorem exists_trivia (o : Options) (n : Nat) (hu : Detached u) :
    ∃ f w, trivia.Portion o n u f w ∧ f.isTrivia = true ∧
      ∀ more, Delimits more → Solid (w ++ more) := by
  induction hu with
  | nil =>
    exact ⟨.nil, [], ⟨rfl, Nat.zero_le n, .nil, fun more hm => .trivia (solid_of_delimits hm)⟩, rfl,
      fun more hm => solid_of_delimits hm⟩
  | @token kind cs rest leads inner behind ih =>
    cases hk : kind.isTrivia with
    | true =>
      obtain ⟨f, w, ⟨rfl, hheight, hleft, hreads⟩, hf, hsolid⟩ := ih
      refine ⟨.data (kind.role .whitespace) (String.ofList cs) f, w,
        ⟨by simp, hheight, hleft, fun more hm => ?_⟩, ?_, hsolid⟩
      · refine .triviaToken ?_ hk (hreads more hm)
        rw [← List.append_assoc]
        exact leads more hm
      · rw [Forest.isTrivia, hf]
        cases kind <;> rfl
    | false =>
      have hsolid (more : List Char) (hm : Delimits more) : Solid (cs ++ rest ++ more) := by
        rw [List.append_assoc]
        exact (leads more hm).solid hk
      exact ⟨.nil, cs ++ rest, ⟨rfl, Nat.zero_le n, .token leads inner behind,
        fun more hm => .trivia (hsolid more hm)⟩, rfl, hsolid⟩

/-- What is left behind the trivia. -/
theorem Portion.takeTrivia (h : trivia.Portion o n u f w) (p : Position) (reach : Nat) :
    ∃ reach', (Tape.ofText p (u ++ [';']) reach).takeTrivia.2 =
      .ofText (p.past f.chars) (w ++ [';']) reach' :=
  (h.yields (delimits_semicolon []) p reach).left

/-- What a look ahead says of a text in front of a semicolon it says whatever closes the text. -/
theorem on_of_stopsAtDelimiter {test : Lookahead} (ht : test.StopsAtDelimiter) (hu : Detached u)
    {p : Position}
    {answer : Bool} (ha : test (Token.readAll p (u ++ [';'])) = answer) {more : List Char}
    (hm : Delimits more) : On test (u ++ more) answer := by
  have hclosed {more : List Char} (hm : Delimits more) (q : Position) :
      test (Token.readAll q (u ++ more)) = test (Token.readAll q u) := by
    rw [hu.readAll hm]
    cases hr : Token.readAll (q.past u) more with
    | nil => rw [List.append_nil]
    | cons t ts =>
      refine ht.delimits _ t ts ?_
      obtain ⟨c, cs, rfl, rfl⟩ := Token.exists_scan hr
      rcases hm c rfl with rfl | rfl <;> cases cs <;> rfl
  intro q
  rw [← ha, hclosed hm, hclosed (delimits_semicolon []), ← ht.unplaced, hu.unplaced q p,
    ht.unplaced]

/-! ## Phrases -/

/-- The semicolon stands there. -/
theorem ahead_semicolon (u : List Char) (p : Position) (reach : Nat) :
    (Tape.ofText p (u ++ [';']) reach).ahead ≠ [] := by
  rw [Tape.ahead_ofText]
  exact fun he => by simpa using Token.readAll_eq_nil he

namespace Transfers

theorem empty : Transfers o n .empty := fun u _ _ hu _ _ =>
  ⟨.nil, u, rfl, Nat.zero_le n, hu, fun _ _ => .empty⟩

/-- A token that is not the last one. It is inside of the detached text, and leads the text
whatever closes it. -/
theorem cases_of_ne_nil {p : Position} {reach : Nat} (hu : Detached u)
    (hn : (Tape.ofText p (u ++ [';']) reach).ahead.tail ≠ []) :
    ∃ (kind : TokenKind) (cs rest : List Char), u = cs ++ rest ∧
      (∀ more, Delimits more → Token.Leads kind cs (rest ++ more)) ∧
      (∀ c ∈ cs, isInner c = true) ∧ Detached rest := by
  cases hu with
  | nil =>
    rw [List.nil_append, Tape.ahead_ofText, Token.readAll_cons, Lexeme.scan_semicolon,
      Token.readAll_nil] at hn
    exact absurd rfl hn
  | @token kind cs rest leads inner behind => exact ⟨kind, cs, rest, rfl, leads, inner, behind⟩

theorem take (tag : DataTag) : Transfers o n (.take tag) := by
  intro u p reach hu _ hn
  rw [Phrase.read, Attempt.tape_ofTaken, Tape.ahead_take] at hn
  obtain ⟨kind, cs, rest, rfl, leads, -, behind⟩ := cases_of_ne_nil hu hn
  exact ⟨.ofData (kind.role tag) (String.ofList cs), rest, by simp, Nat.zero_le n, behind,
    fun more hm => .takeToken (leads more hm) tag⟩

theorem trivia : Transfers o n .trivia := fun _ _ _ hu _ _ =>
  have ⟨f, w, h, _⟩ := exists_trivia o n hu
  ⟨f, w, h⟩

/-- Of the tokens of such a text, none is a quoted text to look into. -/
theorem quoted (named braced : Phrase) : Transfers o n (.quoted named braced) := by
  have hread {o : Options} {n : Nat} {kind : TokenKind} {cs rest : List Char}
      (hk : kind.placeholders? = none) (hl : Token.Leads kind cs rest) (p : Position)
      (reach : Nat) : (Phrase.quoted named braced).read (Production.read n) o
        (.ofText p (cs ++ rest) reach) = .ofTaken (.ofData .stringChunk (String.ofList cs),
          .ofText (p.past cs) rest (p.byte + (String.ofList cs).utf8ByteSize)) := by
    rw [Phrase.read, Attempt.quoted, Tape.ahead_ofText, hl p]
    simp only [hk, Option.getD_none, Tape.ofText, Position.past_append]
    rfl
  intro u p reach hu _ hn
  have htail : (Tape.ofText p (u ++ [';']) reach).ahead.tail ≠ [] := by
    intro htail
    refine hn ?_
    rw [Phrase.read, Attempt.quoted]
    split <;> rename_i ha
    · exact ha
    · rw [ha] at htail
      split <;> exact htail
  obtain ⟨kind, cs, rest, rfl, leads, inner, behind⟩ := cases_of_ne_nil hu htail
  have hk := placeholders?_of_leads (leads [] delimits_nil) inner
  refine ⟨.ofData .stringChunk (String.ofList cs), rest, by simp, Nat.zero_le n, behind,
    fun more hm m q reach _ => ?_⟩
  rw [Forest.chars_ofData, String.toList_ofList, hread hk (leads more hm)]
  exact .data _ _ _ _

theorem andThen {q r : Phrase} (hq : Transfers o n q) (hr : Transfers o n r) :
    Transfers o n (q.andThen r) := by
  intro u p reach hu hc hn
  rw [Phrase.read] at hc hn
  obtain ⟨hfirst, hsecond, he⟩ := hc.of_andThen
  rw [he] at hn
  have hlexed : (q.read (Production.read n) o (.ofText p (u ++ [';']) reach)).tape.Lexed :=
    (conserves_read n q o _ (Tape.lexed_ofText p (u ++ [';']) reach)).lexed
  obtain ⟨f, v, hf⟩ := hq u p reach hu hfirst
    ((conserves_read n r o _ hlexed).ne_nil hn)
  obtain ⟨reach', hl⟩ := (hf.yields (delimits_semicolon []) p reach).left
  rw [hl] at hsecond hn
  obtain ⟨g, w, hg⟩ := hr v _ reach' hf.left hsecond hn
  exact ⟨f ++ g, w, hf.andThen hg⟩

theorem choose {test : Lookahead} {yes no : Phrase} (ht : test.StopsAtDelimiter)
    (hy : Transfers o n yes)
    (hn : Transfers o n no) : Transfers o n (.choose test yes no) := by
  intro u p reach hu hc hne
  have hon {answer : Bool} (ha : test (Token.readAll p (u ++ [';'])) = answer) {f : Forest}
      {w : List Char} (ht' : u = f.chars ++ w) {more : List Char} (hm : Delimits more) :
      On test (f.chars ++ (w ++ more)) answer := by
    rw [← List.append_assoc, ← ht']
    exact on_of_stopsAtDelimiter ht hu ha hm
  rw [Phrase.read, Tape.ahead_ofText] at hc hne
  cases ha : test (Token.readAll p (u ++ [';'])) with
  | true =>
    rw [if_pos ha] at hc hne
    obtain ⟨f, w, ht, hheight, hleft, hreads⟩ := hy u p reach hu hc hne
    exact ⟨f, w, ht, hheight, hleft, fun more hm => .yes (hon ha ht hm) (hreads more hm)⟩
  | false =>
    rw [if_neg (Bool.eq_false_iff.1 ha)] at hc hne
    obtain ⟨f, w, ht, hheight, hleft, hreads⟩ := hn u p reach hu hc hne
    exact ⟨f, w, ht, hheight, hleft, fun more hm => .no (hon ha ht hm) (hreads more hm)⟩

/-- Where calls need their parentheses, the phrase for other calls is not read. -/
theorem spacedCalls (ho : o.spacedCalls = false) {yes no : Phrase} (h : Transfers o n no) :
    Transfers o n (.spacedCalls yes no) := by
  have hread (m : Nat) (tape : Tape) : (Phrase.spacedCalls yes no).read (Production.read m) o tape =
      no.read (Production.read m) o tape := by
    rw [Phrase.read, if_neg (Bool.eq_false_iff.1 ho)]
  intro u p reach hu hc hn
  rw [hread] at hc hn
  obtain ⟨f, w, ht, hheight, hleft, hreads⟩ := h u p reach hu hc hn
  refine ⟨f, w, ht, hheight, hleft, fun more hm m q reach hm' => ?_⟩
  rw [hread]
  exact hreads more hm m q reach hm'

/-- A loop, by the length of the text that is left. A round takes some of it and leaves a text
that is closed in the same way. -/
theorem repeating {test : Lookahead} {body : Phrase} (ht : test.StopsAtDelimiter)
    (hend : test [] = false)
    (htakes : body.takes = true) (hb : Transfers o n body) :
    Transfers o n (.repeating test body) := by
  have hloops : ReadsBack.Loops test body := ⟨hend, htakes⟩
  intro u p reach hu hc hn
  generalize hlength : u.length = l
  induction l using Nat.strong_induction_on generalizing u p reach with
  | h l ih =>
    have hon {answer : Bool} (ha : test (Token.readAll p (u ++ [';'])) = answer) {more : List Char}
        (hm : Delimits more) : On test (u ++ more) answer := on_of_stopsAtDelimiter ht hu ha hm
    rw [ReadsBack.read_repeating hloops] at hc hn
    cases ha : test (Token.readAll p (u ++ [';'])) with
    | false =>
      exact ⟨.nil, u, rfl, Nat.zero_le n, hu, fun more hm => .stop hloops (hon ha hm)⟩
    | true =>
      rw [if_pos ha] at hc hn
      obtain ⟨hround, hothers, he⟩ := hc.of_andThen
      rw [he] at hn
      have hlexed := Tape.lexed_ofText p (u ++ [';']) reach
      have hconserves := conserves_read n body o _ hlexed
      obtain ⟨f, v, hf⟩ := hb u p reach hu hround
        ((conserves_read n _ o _ hconserves.lexed).ne_nil hn)
      obtain ⟨reach', hl⟩ := (hf.yields (delimits_semicolon []) p reach).left
      have hshorter : v.length < l := by
        -- A round takes something, so the rounds come to an end.
        have hprogress := progress_read n htakes o _ hlexed hround.succeeds
          (ahead_semicolon u p reach)
        have htext := congrArg List.length hconserves.text
        have hpos := List.length_pos_iff.2 hprogress
        rw [hl, Tape.text_ofText, Tape.text_ofText] at htext
        simp only [List.length_append, List.length_singleton] at htext
        omega
      rw [hl] at hothers hn
      obtain ⟨g, w, hg⟩ := ih v.length hshorter v _ reach' hf.left hothers hn rfl
      have hboth : (body.andThen (.repeating test body)).Portion o n u (f ++ g) w := hf.andThen hg
      refine ⟨f ++ g, w, hboth.text, hboth.height, hboth.left, fun more hm => ?_⟩
      have hrest : g.chars ++ (w ++ more) = v ++ more := by rw [hg.text, List.append_assoc]
      refine .again hloops ?_ (hrest ▸ hf.reads more hm) (hg.reads more hm)
      rw [hrest, ← List.append_assoc, ← hf.text]
      exact hon ha hm

/-- What never succeeds transfers nothing. -/
theorem of_failure (h : ∀ tape, (q.read (Production.read n) o tape).failure ≠ none) :
    Transfers o n q := fun u p reach _ hc _ =>
  absurd hc.succeeds (h (.ofText p (u ++ [';']) reach))

/-- The digits of a color end in front of what closes the text. -/
theorem hexDigits : Transfers o n .hexDigits := by
  intro u p reach hu hc hn
  rw [Phrase.read] at hc hn
  have hread {more : List Char} (hm : Delimits more) (q : Position) (reach : Nat) :
      Attempt.hexDigits (.ofText q (u ++ more) reach) = (Token.digits? q u).elim
        (.fail ((Tape.ofText q (u ++ more) reach).missing .hexColor) (.ofText q (u ++ more) reach))
        fun found => .ofTaken (.ofData .color found.1.text,
          .ofText found.1.behind (found.2 ++ more) found.1.stop) := by
    rw [Attempt.hexDigits_eq (Tape.lexed_ofText _ _ _), Tape.place_ofText, Tape.text_ofText,
      Token.digits?_stops hm.stops]
    cases Token.digits? q u <;> rfl
  have hlexed := Tape.lexed_ofText p (u ++ [';']) reach
  have hfinished : Finished (Tape.ofText p (u ++ [';']) reach).ahead := by
    rw [Tape.ahead_ofText]
    exact hu.finished p
  -- The semicolon is left over, so the digits have ended in front of it.
  have hleft := (Attempt.finished_hexDigits hlexed hfinished (ahead_semicolon u p reach)).1
  rw [hread (delimits_semicolon [])] at hc hleft
  cases hd : Token.digits? p u with
  | none =>
    rw [hd] at hc
    cases hc.succeeds
  | some found =>
    obtain ⟨t, rest⟩ := found
    rw [hd] at hleft
    obtain ⟨hp, -, htext⟩ := Token.read?_eq_some (Option.filter_eq_some_iff.1 hd).1
    have hrest : Detached rest := by
      refine .of_finished (fun c hc => hu.isInner_of_mem ?_) (p := t.behind) hleft
      rw [htext]
      exact List.mem_append_right _ hc
    refine ⟨.ofData .color t.text, rest, ⟨?_, Nat.zero_le n, hrest, fun more hm m q reach _ => ?_⟩⟩
    · rw [htext, Forest.chars_ofData, Token.chars]
    · rw [Forest.chars_ofData, ← Token.chars, ← List.append_assoc, ← htext, Phrase.read, hread hm,
        Token.digits?_place hd q]
      exact .data _ _ _ _

/-- No block begins in such a text. -/
theorem leftBrace (q : Phrase) : Transfers o n ((mark .leftBrace).andThen q) := by
  intro u p reach hu hc _
  rw [Phrase.read] at hc
  refine absurd hc.of_andThen.1.succeeds (Attempt.failure_mark .leftBrace o ?_)
  rw [Tape.ahead_ofText, significant]
  cases hf : (Token.readAll p (u ++ [';'])).find? (!·.isTrivia) with
  | none => rfl
  | some t => exact hu.isMark_brace (.inl rfl) (List.mem_of_find?_eq_some hf)

/-- A phrase whose looks stop at a delimiter transfers what the constructs inside it transfer. -/
theorem of_readsValue (ho : o.spacedCalls = false)
    (hd : ∀ p : Production, p.isInValue = true → Transfers o n (.node p)) {q : Phrase}
    (hq : q.ReadsValue) : Transfers o n q := by
  induction q with
  | empty => exact .empty
  | take tag => exact .take tag
  | trivia => exact .trivia
  | node p => exact hd p hq
  | andThen first second ih₁ ih₂ => exact .andThen (ih₁ hq.1) (ih₂ hq.2)
  | choose test yes no ihy ihn => exact .choose hq.1 (ihy hq.2.1) (ihn hq.2.2)
  | repeating test body ih => exact .repeating hq.1 hq.2.1 hq.2.2.1 (ih hq.2.2.2)
  | spacedCalls yes no _ ih => exact .spacedCalls ho (ih hq)
  | expected wanted => exact .of_failure fun tape => Option.some_ne_none _
  | orphan => exact .of_failure fun tape => Option.some_ne_none _
  | quoted named braced => exact .quoted named braced
  | hexDigits => exact .hexDigits
  | statements | foreign => cases hq

end Transfers

/-- A node begins behind the trivia in front of it. -/
theorem read_nodeBehind {p : Production} (hk : p.keepsTrivia = false) (n : Nat) (o : Options)
    (tape : Tape) : (Phrase.node p).read (Production.read (n + 1)) o tape =
      ((p.body.read (Production.read n) o tape.takeTrivia.2).framed o.file p.kind
        tape.takeTrivia.2.place).behind tape.takeTrivia.1 := by
  rw [Phrase.read, Production.read, Production.enter_eq, hk, if_neg Bool.false_ne_true,
    Attempt.andThen_of_none rfl]
  rfl

/-- A node, and the trivia in front of it. -/
theorem ReadsBack.nodeBehind {p : Production} {rest : List Char} (hk : p.keepsTrivia = false)
    (ht : ReadsBack o .trivia f (g.chars ++ rest)) (h : ReadsBack o p.body g rest) :
    ReadsBack o (.node p) (f ++ .node p.kind none g .nil) rest := by
  intro n pos reach hn
  obtain ⟨hf, hg⟩ := Forest.height_append_le.1 hn
  rw [Forest.height_node_le] at hg
  obtain ⟨n, rfl⟩ : ∃ m, n = m + 1 := ⟨n - 1, by omega⟩
  have hc : (f ++ .node p.kind none g .nil).chars = f.chars ++ g.chars := by simp
  rw [hc, List.append_assoc, Position.past_append, Phrase.read, Production.read,
    Production.enter_eq, hk, if_neg Bool.false_ne_true]
  exact (ht (n + 1) pos reach hf).andThen fun reach => (h n _ reach (by omega)).framed _ _ _

end Phrase

open Phrase

/-- The rule of a construct transfers what the constructs inside it transfer. -/
theorem Production.transfers_body (ho : o.spacedCalls = false)
    (hd : ∀ p : Production, p.isInValue = true → Transfers o n (.node p)) {p : Production}
    (hp : p.isInValue = true) : Transfers o n p.body := by
  by_cases hb : p = .block
  · rw [hb]
    exact .leftBrace _
  · exact .of_readsValue ho hd (Production.readsValue_body hp hb)

/-- **What is read of a value in front of a semicolon is read of it in front of everything that
closes it.** `Document.Values` reads the values of declarations and assignments by it, with other
levels and elsewhere. -/
theorem Production.transfers (ho : o.spacedCalls = false) (n : Nat) (p : Production)
    (hp : p.isInValue = true) : Transfers o n (.node p) := by
  induction n generalizing p with
  | zero =>
    refine .of_failure fun tape => ?_
    rw [Phrase.read, Production.read, Production.enter, Attempt.failure_behind,
      Attempt.failure_framed]
    exact Option.some_ne_none _
  | succ n ih =>
    have hk : p.keepsTrivia = false := by
      cases p <;> first | rfl | cases hp
    intro u pos reach hu hc hn
    obtain ⟨f, v, hf, -, -⟩ := exists_trivia o (n + 1) hu
    obtain ⟨reach', hl⟩ := hf.takeTrivia pos reach
    rw [read_nodeBehind hk, hl] at hc hn
    obtain ⟨g, w, hg⟩ := Production.transfers_body ho ih hp v _ reach' hf.left
      hc.of_behind.of_framed (by simpa using hn)
    refine ⟨f ++ .node p.kind none g .nil, w, ?_, ?_, hg.left, fun more hm => ?_⟩
    · rw [hf.text, hg.text]
      simp
    · rw [Forest.height_append_le, Forest.height_node_le]
      exact ⟨hf.height, Nat.succ_le_succ hg.height, Nat.zero_le _⟩
    · refine .nodeBehind hk ?_ (hg.reads more hm)
      rw [← List.append_assoc, ← hg.text]
      exact hf.reads more hm

end Heddle
