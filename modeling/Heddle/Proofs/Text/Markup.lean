import Heddle.Text.Markup

/-!
# Markup read back

What was put into a text to mark it up can be taken out again without knowing what was put in:
tags are told by their angle brackets, and an escaped text has none. So **taking the tags out of a
whole and then reading its entities is taking them out of each of its parts** (`untag_tag`,
`strip_encode`), and no part has to say where it ends.

Reading tags before entities matters. A text may itself spell a tag or an entity, and written out it
has the signs of neither: its brackets have become entities, which are read only when no tag is
looked for any more, and each of its ampersands begins an entity of its own.
-/

set_option autoImplicit false

namespace Heddle.Text.Markup

/-- The four entities. -/
def entities : List (List Char) :=
  [['&', 'l', 't', ';'], ['&', 'g', 't', ';'], ['&', 'a', 'm', 'p', ';'],
    ['&', 'q', 'u', 'o', 't', ';']]

/-- A text that can stand between tags: it has neither brackets nor quotes, and an ampersand only
as the beginning of an entity. -/
inductive Escaped : List Char → Prop where
  | nil : Escaped []
  | char {c : Char} (hc : c ∉ ['<', '>', '&', '\x22']) {cs : List Char} (h : Escaped cs) :
      Escaped (c :: cs)
  | entity {e : List Char} (he : e ∈ entities) {cs : List Char} (h : Escaped cs) :
      Escaped (e ++ cs)

/-- A name that can stand in an attribute: ASCII letters and hyphens. -/
def isName (s : List Char) : Bool := s.all fun c => c.isAlpha || c == '-'

/-- A piece of a highlighted text: an escaped text, alone or as the content of a span. The form of
a span is written out, since it is the form that style sheets rely on. -/
inductive IsPiece : List Char → Prop where
  | text {cs : List Char} (h : Escaped cs) : IsPiece cs
  | span {style cs : List Char} (hs : isName style = true) (h : Escaped cs) :
      IsPiece ("<span class=\"weft-".toList ++ style ++ "\">".toList ++ cs ++ "</span>".toList)

/-- The text without its tags, which go from one bracket to the next that closes; `inTag` tells
whether the text begins inside one. -/
def untag (inTag : Bool) : List Char → List Char
  | [] => []
  | c :: cs =>
    if inTag then untag (c != '>') cs
    else if c = '<' then untag true cs
    else c :: untag false cs

/-- The text with each of the four entities read as the sign it stands for. An ampersand that
begins none of them stays. -/
def decode : List Char → List Char
  | '&' :: 'l' :: 't' :: ';' :: cs => '<' :: decode cs
  | '&' :: 'g' :: 't' :: ';' :: cs => '>' :: decode cs
  | '&' :: 'a' :: 'm' :: 'p' :: ';' :: cs => '&' :: decode cs
  | '&' :: 'q' :: 'u' :: 'o' :: 't' :: ';' :: cs => '\x22' :: decode cs
  | c :: cs => c :: decode cs
  | [] => []

/-- The text that a highlighted text shows: first the tags are taken out, then the entities are
read. -/
def strip (html : String) : String :=
  String.ofList (decode (untag false html.toList))

/-- An entity that a text spells is not read as one. -/
example : strip "<span class=\"weft-string\">&quot;&amp;lt;&quot;</span>" = "\"&lt;\"" := by
  decide

/-! ## Characters -/

/-- A character is written as one of the entities, or as itself if it means nothing. -/
theorem encodeChar_cases (c : Char) :
    encodeChar c ∈ entities ∨ encodeChar c = [c] ∧ c ∉ ['<', '>', '&', '\x22'] := by
  unfold encodeChar
  split
  · exact .inl (by decide)
  split
  · exact .inl (by decide)
  split
  · exact .inl (by decide)
  split
  · exact .inl (by decide)
  · exact .inr ⟨rfl, by simp_all⟩

/-- Only an ampersand can begin an entity. -/
theorem decode_cons_of_ne {c : Char} (hc : c ≠ '&') (cs : List Char) :
    decode (c :: cs) = c :: decode cs := by
  rw [decode]
  all_goals exact fun _ h => absurd h hc

theorem decode_encodeChar (c : Char) (cs : List Char) :
    decode (encodeChar c ++ cs) = c :: decode cs := by
  unfold encodeChar
  split <;> rename_i hless
  · subst hless; rfl
  split <;> rename_i hgreater
  · subst hgreater; rfl
  split <;> rename_i hampersand
  · subst hampersand; rfl
  split <;> rename_i hquote
  · subst hquote; rfl
  · exact decode_cons_of_ne hampersand cs

/-- No character is written with a bracket. -/
theorem not_mem_encodeChar (c : Char) : '<' ∉ encodeChar c := by
  rcases encodeChar_cases c with he | ⟨he, hc⟩
  · have hall : ∀ e ∈ entities, '<' ∉ e := by decide
    exact hall _ he
  · rw [he, List.mem_singleton]
    exact fun hless => hc (hless ▸ List.mem_cons_self)

/-! ## Texts -/

theorem escaped_encode (s : String) : Escaped (encode s).toList := by
  rw [encode, String.toList_ofList]
  induction s.toList with
  | nil => exact .nil
  | cons c cs ih =>
    rw [List.flatMap_cons]
    rcases encodeChar_cases c with he | ⟨he, hc⟩
    · exact .entity he ih
    · rw [he]
      exact .char hc ih

/-- What has no bracket has no tag. -/
theorem untag_append_of_not_mem {xs : List Char} (h : '<' ∉ xs) (ys : List Char) :
    untag false (xs ++ ys) = xs ++ untag false ys := by
  induction xs with
  | nil => rfl
  | cons x xs ih =>
    rw [List.mem_cons, not_or] at h
    rw [List.cons_append, untag, if_neg (by simp), if_neg (Ne.symm h.1), ih h.2]
    rfl

/-- A tag is taken out as a whole, if its name has no bracket. -/
theorem untag_tag {xs : List Char} (h : '>' ∉ xs) (ys : List Char) :
    untag false ('<' :: (xs ++ '>' :: ys)) = untag false ys := by
  have hinside : untag true (xs ++ '>' :: ys) = untag false ys := by
    induction xs with
    | nil => rfl
    | cons x xs ih =>
      rw [List.mem_cons, not_or] at h
      rw [List.cons_append, untag, if_pos rfl, bne_iff_ne.2 (Ne.symm h.1), ih h.2]
  rw [untag, if_neg (by simp), if_pos rfl, hinside]

/-- **A text that was written out is read back**, whatever it spells and whatever stands behind
it. The induction is on the characters: each is written as a code that is decoded in one step. -/
theorem strip_encode (s : String) (html : List Char) :
    decode (untag false ((encode s).toList ++ html)) = s.toList ++ decode (untag false html) := by
  have hfree : '<' ∉ (encode s).toList := by
    rw [encode, String.toList_ofList, List.mem_flatMap]
    rintro ⟨c, -, hc⟩
    exact not_mem_encodeChar c hc
  rw [untag_append_of_not_mem hfree, encode, String.toList_ofList]
  induction s.toList with
  | nil => rfl
  | cons c cs ih =>
    rw [List.flatMap_cons, List.append_assoc, decode_encodeChar, ih, List.cons_append]

end Heddle.Text.Markup
