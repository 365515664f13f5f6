import Heddle.Proofs.Document.Locations
import Heddle.Proofs.Reading.Pointed

/-!
# Diagnostics point at what they name

A diagnostic says in words what was wanted and what was found, and in numbers where. **The words and
the numbers are about the same place of the source**: the text that is said to be found stands at
the line and the column that are given, and where nothing was found, they are those of the end of
the source or of the quote that closes a string: **the string whose node is open where the error is
reported**, which is named by the text that was reported in front of it.

The words are read back from the message alone. What is wanted is never called so that it holds the
words between it and what was found (`Wanted.text_plain`), so a message can be taken apart in one
way only.
-/

set_option autoImplicit false

namespace Heddle

/-! ## Messages -/

theorem Mark.length_spelling_le (m : Mark) : m.spelling.toList.length ≤ 3 := by
  cases m <;> simp [Mark.spelling]

/-- What is wanted is not called like what stands behind it in a message. For a mark this is seen
from its length; every other text of what is wanted is checked. -/
theorem Wanted.text_plain {w : Wanted} (h : w.isPlain = true) :
    ¬ ", found ".toList <:+: w.text.toList := by
  cases w with
  | mark m =>
    intro hi
    have hlength := hi.length_le
    have hmark := m.length_spelling_le
    simp [Wanted.text] at hlength
    omega
  | keyword word =>
    simp only [Wanted.isPlain, Bool.or_eq_true, beq_iff_eq] at h
    rcases h with rfl | rfl
    · simp [Wanted.text]
      decide
    · simp [Wanted.text]
      decide
  | _ =>
    simp [Wanted.text]
    decide

/-- Two texts with the same sign behind them, of which neither holds it, are the same if what is
behind is. The sign does not begin with what it goes on with. -/
theorem eq_of_append_sign {c : Char} {sign xs ys us vs : List Char} (hc : c ∉ sign)
    (h : xs ++ (c :: sign ++ us) = ys ++ (c :: sign ++ vs)) (hx : ¬ c :: sign <:+: xs)
    (hy : ¬ c :: sign <:+: ys) : xs = ys ∧ us = vs := by
  -- The longer text holds the sign, or the shorter one ends in the middle of it.
  have hnil {mid us vs zs : List Char} (hz : ¬ c :: sign <:+: zs ++ mid)
      (h : c :: sign ++ us = mid ++ (c :: sign ++ vs)) : mid = [] := by
    rcases List.append_eq_append_iff.1 h with ⟨more, rfl, -⟩ | ⟨more, hsign, hmore⟩
    · exact absurd ⟨zs, more, by simp⟩ hz
    · cases mid with
      | nil => rfl
      | cons d mid =>
        obtain ⟨rfl, rfl⟩ := List.cons.inj hsign
        cases more with
        | nil => exact absurd ⟨zs, [], by simp⟩ hz
        | cons d more =>
          obtain ⟨rfl, -⟩ := List.cons.inj hmore
          exact absurd (List.mem_append_right _ List.mem_cons_self) hc
  rcases List.append_eq_append_iff.1 h with ⟨mid, rfl, hmid⟩ | ⟨mid, rfl, hmid⟩
  · obtain rfl := hnil hy hmid
    exact ⟨(List.append_nil _).symm, List.append_cancel_left hmid⟩
  · obtain rfl := hnil hx hmid
    exact ⟨List.append_nil _, (List.append_cancel_left hmid).symm⟩

/-- What a message says was found, with the quotes around it. -/
def Cause.foundText : Option String → String
  | some found => "'" ++ found ++ "'"
  | none => "end of input"

theorem Cause.message_expected (wanted : Wanted) (found : Option String) :
    (Cause.expected wanted found).message.toList =
      "expected ".toList ++
        (wanted.text.toList ++ (", found ".toList ++ (foundText found).toList)) := by
  cases found <;> simp [message, foundText]

theorem Cause.foundText_inj {t t' : Option String} (h : foundText t = foundText t') : t = t' := by
  cases t with
  | none =>
    cases t' with
    | none => rfl
    | some found => simp [foundText, ← String.toList_inj] at h
  | some found =>
    cases t' with
    | none => simp [foundText, ← String.toList_inj] at h
    | some found' =>
      simp [foundText, ← String.toList_inj] at h
      rw [String.toList_inj.1 h]

theorem Cause.eq_strayBrace {cause : Cause} (h : cause.message = "unexpected '\x7d'") :
    cause = .strayBrace := by
  cases cause with
  | expected wanted found => cases found <;> simp [message, ← String.toList_inj] at h
  | orphan word => simp [message, ← String.toList_inj] at h
  | strayBrace => rfl
  | tooDeep => simp [message] at h

theorem Cause.eq_expected {cause : Cause} (h : "expected ".toList <+: cause.message.toList) :
    ∃ wanted found, cause = .expected wanted found := by
  cases cause with
  | expected wanted found => exact ⟨wanted, found, rfl⟩
  | orphan word => simp [message] at h
  | strayBrace => simp [message] at h
  | tooDeep => simp [message] at h

namespace Failure.Points

variable {source : String} {string? : Option (List Char)} {f : Failure}

/-- A message that says what was wanted is that of the cause which says so. The message is all
that a user has, so the claim is about messages, and this lemma goes from it to the cause. -/
theorem of_expected (h : f.Points source string?) {wanted found : List Char}
    (hm : f.cause.message.toList =
      "expected ".toList ++ (wanted ++ (", found ".toList ++ found)))
    (hw : ¬ ", found ".toList <:+: wanted) :
    ∃ w t, f.cause = .expected w t ∧ (Cause.foundText t).toList = found := by
  obtain ⟨cause, position⟩ := f
  cases cause with
  | expected w t =>
    refine ⟨w, t, rfl, ?_⟩
    have hplain : w.isPlain = true := by
      cases t with
      | some t => exact h.1
      | none => exact h.1
    have hsign : ", found ".toList = ',' :: [' ', 'f', 'o', 'u', 'n', 'd', ' '] := by simp
    have hplain' := Wanted.text_plain hplain
    rw [Cause.message_expected] at hm
    have hrest := List.append_cancel_left hm
    rw [hsign] at hrest hw hplain'
    exact (eq_of_append_sign (by decide) hrest hplain' hw).2
  | orphan word => simp [Cause.message] at hm
  | strayBrace => simp [Cause.message] at hm
  | tooDeep => simp [Cause.message] at hm

end Failure.Points

/-! ## Places -/

/-- The error is shown behind the text: its line is counted by line feeds, and its column by the
characters of the last line. It does not mention the code that counts. -/
def Diagnostic.ShownBehind (front : List Char) (d : Diagnostic) : Prop :=
  d.line = 1 + front.count '\n' ∧ d.column = 1 + (front.reverse.takeWhile (· != '\n')).length

/-- A place behind a text of the source is shown behind the text. -/
theorem Failure.shownBehind {source : String} {f : Failure} {front : List Char}
    (h : f.position = (openSource source).1.past front) (file : Option String) :
    (f.diagnostic file).ShownBehind front := by
  have hplace := openSource_place source
  constructor
  · show f.position.line = _
    rw [h, Position.line_past, hplace]
  · show f.position.column = _
    rw [h, Position.column_past (by rw [hplace])]

/-! ## Whole sources -/

/-- The errors of a source point at what they name. It is what `Reading.Pointed` shows of every
reading, for that of a source, in front of which nothing was reported. -/
theorem pointed_readDocument (o : Options) (source : String) :
    Event.Pointed source {} (readDocument o source).events := by
  have hlexed := Tape.lexed_ofText (openSource source).1 (openSource source).2 0
  have hruns : (Phrase.statements false .statement).Runs 0 o
      (.ofText (openSource source).1 (openSource source).2 0) (readStatements o source) :=
    Phrase.runs_phrase (Phrase.runs_read maxNesting 0 (Nat.zero_add _)) _ rfl o _ hlexed
  -- The document is no string, so it is the source that is read in it.
  have hpoints : Attempt.Points source none (({} : Event.Front).step (.start .document)) _
      (readStatements o source) :=
    hruns.points rfl (.ofPlain rfl rfl) (.ofSource source 0)
  rw [readDocument_eq]
  exact (hpoints.framed (openSource source).1).events

/-- **Diagnostics point at what they name.** If a message says what was found, that text is not
empty and stands in the source where the error is shown. If it says that the input ended, the
error is shown at the end of the source if no string is open there, and otherwise at the closing
quote of the innermost string that is open: the string begins behind the text that was reported in
front of its node, and its quote is the first one of its style that no backslash hides. A brace
that is unexpected stands where the error is shown. And every message that begins with what was
expected says what was found or that the input ended. -/
theorem readDocument_diagnostics (o : Options) (source : String) {before after : List Event}
    {d : Diagnostic} (h : (readDocument o source).events = before ++ .error d :: after) :
    (∀ wanted found, d.message = "expected " ++ wanted ++ ", found '" ++ found ++ "'" →
      ¬ ", found ".toList <:+: wanted.toList →
        found ≠ "" ∧ ∃ front behind,
          (openSource source).2 = front ++ (found.toList ++ behind) ∧ d.ShownBehind front) ∧
    (∀ wanted, d.message = "expected " ++ wanted ++ ", found end of input" →
      ¬ ", found ".toList <:+: wanted.toList →
        (({} : Event.Front).after before).string? = none ∧ d.ShownBehind (openSource source).2 ∨
        .string ∈ Event.opened [] before ∧
          ∃ (style : QuoteStyle) (front body rest : List Char),
            (({} : Event.Front).after before).string? = some front ∧
            (openSource source).2 = front ++ style.mark :: (body ++ style.mark :: rest) ∧
            Lexeme.closing? style.mark (body ++ style.mark :: rest) =
              some (body ++ [style.mark], rest) ∧
            d.ShownBehind (front ++ style.mark :: body)) ∧
    (d.message = "unexpected '\x7d'" → ∃ front behind,
      (openSource source).2 = front ++ '\x7d' :: behind ∧ d.ShownBehind front) ∧
    ("expected ".toList <+: d.message.toList → ∃ wanted, ¬ ", found ".toList <:+: wanted.toList ∧
      (d.message = "expected " ++ wanted ++ ", found end of input" ∨
        ∃ found, d.message = "expected " ++ wanted ++ ", found '" ++ found ++ "'")) := by
  obtain ⟨f, hf, hd⟩ := pointed_readDocument o source before d after h
  have hmessage : d.message = f.cause.message := congrArg Diagnostic.message hd
  have hshown {front : List Char} (hp : f.position = (openSource source).1.past front) :
      d.ShownBehind front := hd ▸ Failure.shownBehind hp d.file
  -- Each message is traced back to its cause, and what is known of the failure is said of the
  -- cause.
  refine ⟨fun wanted found hm hw => ?_, fun wanted hm hw => ?_, fun hm => ?_, fun hm => ?_⟩
  · have hexpected : f.cause.message.toList = "expected ".toList ++ (wanted.toList ++
        (", found ".toList ++ (Cause.foundText (some found)).toList)) := by
      rw [← hmessage, hm]
      simp [Cause.foundText]
    obtain ⟨w, t, hc, ht⟩ := hf.of_expected hexpected hw
    obtain rfl := Cause.foundText_inj (String.toList_inj.1 ht)
    rw [Failure.Points, hc] at hf
    obtain ⟨-, hne, front, behind, hsource, hplace⟩ := hf
    exact ⟨hne, front, behind, hsource, hshown hplace⟩
  · have hexpected : f.cause.message.toList = "expected ".toList ++ (wanted.toList ++
        (", found ".toList ++ (Cause.foundText none).toList)) := by
      rw [← hmessage, hm]
      simp [Cause.foundText]
    obtain ⟨w, t, hc, ht⟩ := hf.of_expected hexpected hw
    obtain rfl := Cause.foundText_inj (String.toList_inj.1 ht)
    rw [Failure.Points, hc] at hf
    replace hf := hf.2
    -- Whether a string is open decides which of the two ends is meant.
    cases hs : (({} : Event.Front).after before).string? with
    | none =>
      rw [hs] at hf
      exact .inl ⟨rfl, hshown hf⟩
    | some front =>
      rw [hs] at hf
      obtain ⟨style, body, rest, hsource, hclosing, hplace⟩ := hf
      exact .inr ⟨Event.Front.string_mem hs, style, front, body, rest, rfl, hsource, hclosing,
        hshown hplace⟩
  · have hc : f.cause = .strayBrace := Cause.eq_strayBrace (hmessage ▸ hm)
    rw [Failure.Points, hc] at hf
    obtain ⟨front, behind, hsource, hplace⟩ := hf
    exact ⟨front, behind, hsource, hshown hplace⟩
  · rw [hmessage] at hm ⊢
    obtain ⟨wanted, found, hc⟩ := Cause.eq_expected hm
    rw [Failure.Points, hc] at hf
    rw [hc]
    cases found with
    | some found => exact ⟨wanted.text, wanted.text_plain hf.1, .inr ⟨found, rfl⟩⟩
    | none => exact ⟨wanted.text, wanted.text_plain hf.1, .inl rfl⟩

/-- A placeholder that the closing quote cuts off, on a second line. -/
theorem readDocument_diagnostics_cut :
    ∃ before d after, (readDocument {} "\nf(\"%\x7ba\");").events = before ++ .error d :: after ∧
      d = ⟨"expected '\x7d', found end of input", none, 2, 7⟩ ∧
      ((({} : Event.Front).after before).string? = none ∧
        d.ShownBehind (openSource "\nf(\"%\x7ba\");").2 ∨
        .string ∈ Event.opened [] before ∧
          ∃ (style : QuoteStyle) (front body rest : List Char),
            (({} : Event.Front).after before).string? = some front ∧
            (openSource "\nf(\"%\x7ba\");").2 =
              front ++ style.mark :: (body ++ style.mark :: rest) ∧
            Lexeme.closing? style.mark (body ++ style.mark :: rest) =
              some (body ++ [style.mark], rest) ∧
            d.ShownBehind (front ++ style.mark :: body)) := by
  have he : (readDocument {} "\nf(\"%\x7ba\");").events =
      (readDocument {} "\nf(\"%\x7ba\");").events.take 22 ++
        .error ⟨"expected '\x7d', found end of input", none, 2, 7⟩ ::
          (readDocument {} "\nf(\"%\x7ba\");").events.drop 23 := by cbv
  obtain ⟨-, hended, -⟩ := readDocument_diagnostics {} _ he
  have hwanted : ¬ ", found ".toList <:+: "'\x7d'".toList := by
    simp
    decide
  exact ⟨_, _, _, he, rfl, hended "'\x7d'" (by simp) hwanted⟩

end Heddle
