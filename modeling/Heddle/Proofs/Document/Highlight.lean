import Heddle.Proofs.Checked.Document
import Heddle.Proofs.Text.Markup

/-!
# Highlighted texts show their source

A highlighter is used by more than the reader of sources, and nothing makes its user keep to the
order of a report. So what it writes is described for calls in any order, resets in between
included: **what it writes is made of pieces, and taking the markup out gives the text of the data
since the last reset** (`shows_run`). The pieces are known by more than their form. Each is the span
of a text that was given, and that is what makes taking the markup out of the whole the same as
taking it out of each piece.

Of a source this says that a highlighted source shows the source, since a report has all of its
text.
-/

set_option autoImplicit false

namespace Heddle

open Text

/-! ## Pieces -/

/-- The name of a style can stand in an attribute. All styles are listed and looked at. -/
theorem DataTag.isName_style {innermost : Option NodeKind} {tag : DataTag} {style : String}
    (h : tag.style innermost = some style) : Markup.isName style.toList = true := by
  have hpunctuation : Markup.isName (NodeKind.punctuationStyle innermost).toList = true := by
    unfold NodeKind.punctuationStyle
    split <;> decide
  cases tag with
  | punctuation => exact Option.some.inj h ▸ hpunctuation
  | whitespace | comment => cases h
  | _ => exact Option.some.inj h ▸ by decide

namespace Highlighter

theorem isPiece_span (innermost : Option NodeKind) (tag : DataTag) (text : String) :
    Markup.IsPiece (span innermost tag text).toList := by
  unfold span
  split <;> rename_i hs
  · have hpiece := Markup.IsPiece.span (DataTag.isName_style hs) (Markup.escaped_encode text)
    simpa only [String.toList_append] using hpiece
  · exact .text (Markup.escaped_encode text)

/-- **A span shows its text**, and what stands behind it is not touched. That there may be
anything behind it is what makes it possible to take the markup out of a whole by taking it out of
each piece. -/
theorem strip_span (innermost : Option NodeKind) (tag : DataTag) (text : String)
    (html : List Char) :
    Markup.decode (Markup.untag false ((span innermost tag text).toList ++ html)) =
      text.toList ++ Markup.decode (Markup.untag false html) := by
  unfold span
  split <;> rename_i hs
  · rename_i style
    have hname := DataTag.isName_style hs
    have hopening : '>' ∉ "span class=\"weft-".toList ++ style.toList ++ ['\x22'] := by
      rw [List.mem_append, List.mem_append]
      rintro ((hc | hc) | hc)
      · revert hc; decide
      · exact absurd (List.all_eq_true.1 hname _ hc) (by decide)
      · revert hc; decide
    calc Markup.decode (Markup.untag false (("<span class=\"weft-" ++ style ++ "\">" ++
            Markup.encode text ++ "</span>").toList ++ html))
      _ = Markup.decode (Markup.untag false ('<' :: (("span class=\"weft-".toList ++ style.toList ++
            ['\x22']) ++ '>' :: ((Markup.encode text).toList ++ ("</span>".toList ++ html))))) := by
          simp
      _ = Markup.decode (Markup.untag false
            ((Markup.encode text).toList ++ ("</span>".toList ++ html))) := by
          rw [Markup.untag_tag hopening]
      _ = text.toList ++ Markup.decode (Markup.untag false ("</span>".toList ++ html)) :=
          Markup.strip_encode text _
      _ = text.toList ++ Markup.decode (Markup.untag false html) := by
          rw [show "</span>".toList ++ html = '<' :: ("/span".toList ++ '>' :: html) by simp,
            Markup.untag_tag (by decide)]
  · exact Markup.strip_encode text html

/-! ## Calls in any order -/

/-- A use of a highlighter. Nothing is asked of the order in which uses come. -/
inductive Call where
  | event (e : Event)
  /-- Everything is forgotten. -/
  | reset
deriving DecidableEq, Repr

/-- A stop that does not fit is complained about and changes the highlighter as any other. -/
def call (h : Highlighter) : Call → Highlighter
  | .event e => (h.step e).1
  | .reset => {}

/-- Calls one after the other. -/
def run (h : Highlighter) (calls : List Call) : Highlighter := calls.foldl call h

/-- The events since the last reset, of which there were `es` before the call. -/
def Call.onto (es : List Event) : Call → List Event
  | .event e => es ++ [e]
  | .reset => []

/-- The events since the last reset. -/
def sinceReset (calls : List Call) : List Event := calls.foldl Call.onto []

/-- A highlighted text of these texts: it is made of pieces, and without its markup it is what the
texts are together. -/
structure Shows (html : String) (texts : List String) : Prop where
  pieces : ∃ pieces : List (List Char), html.toList = pieces.flatten ∧
    ∀ p ∈ pieces, Markup.IsPiece p
  /-- Whatever is written behind it. -/
  strip : ∀ behind : List Char, Markup.decode (Markup.untag false (html.toList ++ behind)) =
    (String.join texts).toList ++ Markup.decode (Markup.untag false behind)

theorem Shows.nothing : Shows "" [] := ⟨⟨[], rfl, nofun⟩, fun _ => rfl⟩

/-- One more span shows one more text. -/
theorem Shows.span {html : String} {texts : List String} (h : Shows html texts)
    (innermost : Option NodeKind) (tag : DataTag) (text : String) :
    Shows (html ++ span innermost tag text) (texts ++ [text]) where
  pieces := by
    obtain ⟨pieces, hhtml, hpieces⟩ := h.pieces
    refine ⟨pieces ++ [(Highlighter.span innermost tag text).toList], by simp [hhtml], ?_⟩
    intro p hp
    rcases List.mem_append.1 hp with hp | hp
    · exact hpieces p hp
    · rw [List.mem_singleton.1 hp]
      exact isPiece_span innermost tag text
  strip := by
    intro behind
    rw [String.toList_append, List.append_assoc, h.strip, strip_span]
    simp [String.join_append]

/-- A text that shows nothing more. -/
theorem Shows.empty {html : String} {texts : List String} (h : Shows html texts) :
    Shows html (texts ++ [""]) :=
  ⟨h.pieces, by simpa [String.join_append] using h.strip⟩

/-- An event adds a span of its text. An event that is no data has no text and adds nothing. -/
theorem Shows.step {h : Highlighter} {texts : List String} (hs : Shows h.html texts) (e : Event) :
    Shows (h.step e).1.html (texts ++ [e.text]) := by
  cases e with
  | data tag text => exact hs.span h.opened.head? tag text
  | start kind => exact hs.empty
  | location l => exact hs.empty
  | error d => exact hs.empty
  | stop kind => exact hs.empty
  | commit => exact hs.empty

/-- **Calls in any order leave a highlighted text of the data since the last reset.** The
induction is on the calls, from any highlighter that has written such a text so far; a reset goes
back to the empty one. -/
theorem shows_run (calls : List Call) :
    Shows (({} : Highlighter).run calls).html ((sinceReset calls).map Event.text) := by
  suffices ∀ (h : Highlighter) (es : List Event), Shows h.html (es.map Event.text) →
      Shows (h.run calls).html ((calls.foldl Call.onto es).map Event.text) from
    this {} [] .nothing
  induction calls with
  | nil => exact fun _ _ h => h
  | cons c calls ih =>
    intro h es hs
    cases c with
    | event e =>
      apply ih
      rw [Call.onto, List.map_append]
      exact hs.step e
    | reset => exact ih {} [] .nothing

theorem Shows.strip_eq {html : String} {texts : List String} (h : Shows html texts) :
    Markup.strip html = String.join texts := by
  have hall := h.strip []
  rw [List.append_nil] at hall
  rw [Markup.strip, hall, show Markup.decode (Markup.untag false []) = [] from rfl,
    List.append_nil, String.ofList_toList]

/-- Where every stop fits, taking events is calling with them. Otherwise feeding would end at the
stop that does not fit, and calling would go on. -/
theorem feed_eq_run {h : Highlighter} {es : List Event} (hf : (h.feed es).2 = none) :
    (h.feed es).1 = h.run (es.map .event) := by
  induction es generalizing h with
  | nil => rfl
  | cons e es ih =>
    rw [feed] at hf ⊢
    rcases hs : h.step e with ⟨h', refused⟩
    rw [hs] at hf
    cases refused with
    | some unbalanced => cases hf
    | none =>
      rw [ih hf]
      simp [run, call, hs]

/-- Without a reset no event is forgotten. -/
theorem sinceReset_map (es : List Event) : sinceReset (es.map .event) = es := by
  suffices ∀ front, (es.map Call.event).foldl Call.onto front = front ++ es from this []
  induction es with
  | nil => simp
  | cons e es ih => simp [Call.onto, ih]

/-- **What a highlighter writes is made of escaped texts and spans around them, and without its
tags and entities it is the text of the data since the last reset**, whatever the order of the
calls; so a highlighted source shows the source, but for a leading byte order mark. -/
theorem strip_html :
    (∀ calls : List Call,
      (∃ pieces : List (List Char),
        (({} : Highlighter).run calls).html.toList = pieces.flatten ∧
          ∀ p ∈ pieces, Markup.IsPiece p) ∧
      Markup.strip (({} : Highlighter).run calls).html =
        String.join ((sinceReset calls).map Event.text)) ∧
    ∀ (o : Options) (source : String),
      Markup.strip (ofSource o source).html =
        String.ofList (if source.toList.head? = some '\uFEFF' then source.toList.tail
          else source.toList) := by
  refine ⟨fun calls => ⟨(shows_run calls).pieces, (shows_run calls).strip_eq⟩, ?_⟩
  intro o source
  have hshown := (shows_run ((readDocument o source).events.map .event)).strip_eq
  rw [sinceReset_map] at hshown
  rw [ofSource, feed_eq_run (feed_report {} _), hshown, readDocument_text]

end Highlighter

end Heddle
