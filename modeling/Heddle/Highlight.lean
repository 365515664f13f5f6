import Heddle.Event
import Heddle.Reading
import Heddle.Text.Markup

/-!
# Highlighting

A highlighter writes the data of a report as HTML: every piece of data becomes a span whose class
is its role, and trivia stands as it is. Without its tags and entities the result is the text
again. Of punctuation the class also depends on the innermost open node, so the highlighter keeps
the kinds of the open nodes and notices a stop that does not fit.

Like a builder, a highlighter sees nothing but events. Unlike a builder it has no use for commits:
what was dropped from the tree stays in the text.
-/

set_option autoImplicit false

namespace Heddle

/-- The state of a text that is being highlighted. -/
structure Highlighter where
  html : String := ""
  /-- The kinds of the open nodes, innermost first. -/
  opened : List NodeKind := []
  errors : List Diagnostic := []
deriving DecidableEq, Repr

/-- A stop of another kind than the innermost open node's, or of none. No reading makes one; the
check is there for other sources of events. -/
structure Unbalanced where
  kind : NodeKind
  innermost : Option NodeKind
deriving DecidableEq, Repr

def Unbalanced.message (_ : Unbalanced) : String := "unbalanced node_end"

/-- The style of punctuation inside a node: of a quoted text it belongs to a placeholder. -/
def NodeKind.punctuationStyle : Option NodeKind → String
  | some .string => "placeholder"
  | some .selector | some .objectSelector | some .flag | some .filter => "selector"
  | _ => "punctuation"

/-- The style of a role inside a node; trivia has none. -/
def DataTag.style (innermost : Option NodeKind) : DataTag → Option String
  | .whitespace | .comment => none
  | .keyword => some "keyword"
  | .modifier => some "modifier"
  | .punctuation => some (NodeKind.punctuationStyle innermost)
  | .operator => some "operator"
  | .comparator => some "comparator"
  | .combinator => some "combinator"
  | .number => some "number"
  | .stringChunk => some "string"
  | .rawString => some "raw-string"
  | .color => some "color"
  | .constant => some "constant"
  | .typeName => some "type"
  | .varName => some "variable"
  | .propertyName => some "property"
  | .functionName => some "function"
  | .parameterName => some "parameter"
  | .elementName => some "element"
  | .className => some "class"
  | .idName => some "id"
  | .flagName => some "flag"
  | .objectKeyword => some "object"
  | .language => some "language"
  | .foreignContent => some "foreign"
  | .invalid => some "invalid"

namespace Highlighter

/-- A piece of data as HTML. The style is a class of the span, and the text inside is encoded, so
that decoding the entities gives the text back. -/
def span (innermost : Option NodeKind) (tag : DataTag) (text : String) : String :=
  match tag.style innermost with
  | some style =>
    "<span class=\"weft-" ++ style ++ "\">" ++ Text.Markup.encode text ++ "</span>"
  | none => Text.Markup.encode text

/-- Takes one event. A stop that does not fit takes the innermost node away all the same, as a
builder does. -/
def step (h : Highlighter) : Event → Highlighter × Option Unbalanced
  | .start kind => ({ h with opened := kind :: h.opened }, none)
  | .data tag text => ({ h with html := h.html ++ span h.opened.head? tag text }, none)
  | .location _ => (h, none)
  | .error d => ({ h with errors := h.errors ++ [d] }, none)
  | .stop kind =>
    ({ h with opened := h.opened.tail },
      if h.opened.head? = some kind then none else some ⟨kind, h.opened.head?⟩)
  | .commit => (h, none)

/-- Takes events one after the other, up to the first that does not fit. -/
def feed (h : Highlighter) : List Event → Highlighter × Option Unbalanced
  | [] => (h, none)
  | e :: es =>
    match h.step e with
    | (h, none) => h.feed es
    | (h, some unbalanced) => (h, some unbalanced)

/-- A source, highlighted. -/
def ofSource (o : Options) (source : String) : Highlighter :=
  (({} : Highlighter).feed (readDocument o source).events).1

end Highlighter

end Heddle
