import Mathlib
import Heddle.Proofs.Document.Derivation
import Heddle.Proofs.Reading.Leaves
import Heddle.Proofs.Tape.Standing
import Heddle.Proofs.Token.HexNumbers

/-!
# The colors of a source

A color is its sign and the digits right behind it. The digits are read by a rule of their own, with
a preference for hexadecimal digits and from a text that may be cut out of a string, and from behind
them on the text is cut anew. What is taken is any number in hexadecimal digits: **a fraction, a
percent sign and the sign `0x` belong to the color**, where they are there, and nothing else does.
-/

set_option autoImplicit false

namespace Heddle

open Attempt Text

/-- The extent of a text that stands at a place. -/
def Location.over (file : Option String) (place : Position) (cs : List Char) : Location :=
  ⟨file, place.line, place.column, place.byte, byteSize cs⟩

/-- The node is a sign with a hexadecimal number right behind it. They stand in the source where
the node is, and the number goes as far as it can there. The sign is any here, since the reading
of the inside does not ask for it; that it is `#` follows from the derivation of the node. -/
def Node.HasDigits (file : Option String) (source : String) (n : Node) : Prop :=
  ∃ (tag : DataTag) (sign : String) (front digits behind : List Char),
    (openSource source).2 = front ++ (sign.toList ++ (digits ++ behind)) ∧
    n.location = some (.over file ((openSource source).1.past front) (sign.toList ++ digits)) ∧
    n.children = .data tag sign (.ofData .color (String.ofList digits)) ∧
    HexNumber digits behind

theorem Production.kind_eq_color {p : Production} (h : p.kind = .color) : p = .color := by
  cases p <;> first | rfl | cases h

namespace Tape

variable {source : String}

/-- Wherever a reading gets to lies in the source, in the text around or in a string of it. This
is the invariant that the placeholders need: a color in one of them is a color of the source. -/
theorem domain_liesIn (source : String) :
    Domain fun tape => ∃ string? front, tape.LiesIn source string? front where
  lexed := fun ⟨_, _, h⟩ => h.lexed
  conserves := fun ⟨string?, _, h⟩ ha => ⟨string?, _, h.conserves ha⟩
  window := fun ⟨_, _, h⟩ hw => (h.window hw).elim fun _ hlies => ⟨_, _, hlies⟩

/-- What the inside of a color leaves behind, and where. A color may be the last thing in a
string, so the digits have to end at the closing quote as they would at the end of the source.

The reading of the inside has two steps, the sign and the digits. The proof says what each has
taken, and then puts the four parts of `HasDigits` together from it. -/
theorem LiesIn.color {string? : Option (List Char)} {front : List Char} {tape : Tape}
    (h : tape.LiesIn source string? front)
    {descend : Options → Production → Tape → Attempt} {o : Options} {a : Attempt}
    (ha : Production.color.body.read descend o tape = a) (hf : a.failure = none)
    (file : Option String) :
    Node.HasDigits file source ⟨.color, some (a.tape.extent file tape.place), a.trace.forest⟩ := by
  replace ha : (hexDigits (tape.take .punctuation).2).behind (tape.take .punctuation).1 = a := ha
  have hsign := Conserves.take .punctuation h.lexed
  have hconserves : Conserves tape a := ha ▸ hsign.behind (.hexDigits hsign.lexed)
  rcases hexDigits_cases hsign.lexed with he | ⟨digits, rest, hr, hk, he⟩
  · rw [tape_ofTaken] at he
    rw [← ha, he] at hf
    cases hf
  rw [tape_ofTaken] at he hr
  rw [he] at ha
  -- The end of the text has no digits in it, so there is a sign to be taken.
  obtain ⟨sign, ts, hahead⟩ : ∃ sign ts, tape.ahead = sign :: ts := by
    refine List.exists_cons_of_ne_nil fun hnil => ?_
    rw [take_of_nil _ hnil, text_eq_nil hnil] at hr
    cases hr
  have htrace : a.trace = .ofData (sign.kind.role .punctuation) sign.text ++
      .ofData .color digits.text := by
    rw [← ha, take_of_cons _ hahead]
    rfl
  have htape : a.tape = .ofText digits.behind rest digits.stop := by rw [← ha]; rfl
  have htaken : a.trace.text = sign.chars ++ digits.chars := by
    rw [htrace, Trace.text_append, Trace.text_ofData, Trace.text_ofData]
    rfl
  obtain ⟨behind, hsource, hbehind⟩ := h.stands
  refine ⟨sign.kind.role .punctuation, sign.text, front, digits.chars, rest ++ behind,
    ?_, ?_, ?_, ?_⟩
  · rw [hsource, hconserves.text, htaken, htape, text_ofText]
    simp [Token.chars]
  · have hreach : a.tape.reach = tape.place.byte + byteSize (sign.chars ++ digits.chars) := by
      rw [← htaken, ← Position.byte_past, ← hconserves.place, htape, place_ofText, reach_ofText,
        Token.byte_behind]
    rw [extent, hreach, Nat.add_sub_cancel_left, h.place]
    rfl
  · rw [htrace]
    simp [Trace.ofData, Trace.ofNote, Trace.forest, Forest.ofData, Token.chars]
  · have hnumber := Token.hexNumber_of_read? hr hk
    -- Up to the end of the text around, or up to the closing quote of the string.
    rcases hbehind with ⟨-, rfl⟩ | ⟨-, -, -, style, more, rfl⟩
    · rwa [List.append_nil]
    · exact hnumber.append_mark style more

end Tape

/-! ## Whole sources -/

/-- The children of a color tell its sign. The regular expression of a color has the one sign in
front of the digits. -/
theorem Node.IsDerived.color_sign {n : Node} (h : n.IsDerived) (hk : n.kind = .color)
    {tag : DataTag} {sign digits : String}
    (hc : n.children = .data tag sign (.ofData .color digits)) :
    tag = .punctuation ∧ sign = "#" := by
  rw [Node.IsDerived, hk, hc] at h
  obtain ⟨xs, hxs, ys, hys, hsymbols⟩ := Language.mem_mul.1 h
  obtain rfl : xs = [.sign .punctuation "#"] := hxs
  obtain rfl : ys = [.data .color] := hys
  replace hsymbols : [.sign .punctuation "#"] ++ [Symbol.data .color] =
      Symbol.ofChild tag sign ++ [.data .color] := hsymbols
  have hchild := List.append_cancel_right hsymbols
  cases tag <;> simp [Symbol.ofChild, Symbol.ofData, DataTag.isTrivia] at hchild ⊢
  exact hchild.symm

/-- Every color that is read of a source has its digits behind its sign. This is the property of
`LiesIn.color`, carried over the whole reading by `Reading.Leaves`. -/
theorem hasDigits_readStatements (o : Options) (source : String) :
    (readStatements o source).trace.Each .color (Node.HasDigits o.file source) := by
  have hD := Tape.domain_liesIn source
  have hcolor : .color ≠ NodeKind.invalid := by decide
  refine (((leaves_steps hD hcolor o.file).phrase (fun o' ho p tape => ?_)
    (.statements false .statement) (fun hq => nomatch hq) o rfl _)
      ⟨none, [], .ofSource source 0⟩).2
  refine leaves_read hD hcolor (fun n o p tape ho hk ⟨_, _, hd⟩ hf => ?_) maxNesting ho p tape
  obtain rfl := Production.kind_eq_color hk
  exact hd.color rfl hf _

/-- **A color is its sign and one hexadecimal number.** For every source, with or without errors,
every color of the tree has the sign and right behind it, as a single piece, a number in hexadecimal
digits. There is nothing else in it, and the number goes as far as it can at that place of the
source. -/
theorem ofSource_colors (o : Options) (source : String) :
    ∃ root, (Parsed.ofSource o source).root = some root ∧ ∀ n ∈ root.findAll .color,
      ∃ front digits behind, (openSource source).2 = front ++ '#' :: (digits ++ behind) ∧
        n.location = some (.over o.file ((openSource source).1.past front) ('#' :: digits)) ∧
        n.children =
          .data .punctuation "#" (.ofData .color (String.ofList digits)) ∧
        n.text = String.ofList ('#' :: digits) ∧ HexNumber digits behind := by
  obtain ⟨root, hroot, -, -, hderived⟩ := ofSource_derived o source
  refine ⟨root, hroot, fun n hn => ?_⟩
  have hdigits : n.HasDigits o.file source := by
    rw [Parsed.ofSource_eq] at hroot
    cases hroot
    exact hasDigits_readStatements o source n hn
  obtain ⟨tag, sign, front, digits, behind, hsource, hlocation, hchildren, hnumber⟩ := hdigits
  obtain ⟨rfl, rfl⟩ := (hderived .color n hn).color_sign (Forest.kind_of_mem_findAll hn) hchildren
  refine ⟨front, digits, behind, hsource, hlocation, hchildren, ?_, hnumber⟩
  rw [Node.text, hchildren]
  simp [Forest.text, Forest.ofData]

/-- The percent sign belongs to the color, although digits alone would leave an operator behind. -/
theorem not_digits_alone :
    ¬ ∀ (o : Options) (source : String) (root : Node),
      (Parsed.ofSource o source).root = some root → ∀ n ∈ root.findAll .color,
        ∃ digits : Run isHexDigit, n.text = String.ofList ('#' :: digits.chars) := by
  intro h
  have hpercent : (Parsed.ofSource {} "x = #ff% -5;").root.any (fun root =>
      (root.findAll .color).any fun n => n.text == "#ff%") = true := by cbv
  obtain ⟨root, hr, hroot⟩ := (Option.any_eq_true _ _).1 hpercent
  obtain ⟨n, hn, htext⟩ := List.any_eq_true.1 hroot
  obtain ⟨digits, hdigits⟩ := h _ _ root hr n hn
  rw [beq_iff_eq.1 htext] at hdigits
  have hchars : ['#', 'f', 'f', '%'] = '#' :: digits.chars := by
    simpa using congrArg String.toList hdigits
  have hmem : '%' ∈ digits.chars := by
    rw [← (List.cons.inj hchars).2]
    decide
  exact absurd (digits.forall_mem _ hmem) (by decide)

end Heddle
