import Heddle.NodeKind
import Heddle.DataTag
import Heddle.Diagnostic

/-!
# Syntax trees

A tree keeps what a reading committed: nodes with their extents, and data in its order, trivia
included. The children of a node are a `Forest`, which is a list of children written out as one
inductive type, so that recursion over a whole tree is recursion over a single type.
-/

set_option autoImplicit false

namespace Heddle

/-- Children in their order, as one inductive type: a list of children of which the nodes have
lists of children would be a nested type, with a recursion principle that no induction here would
want. -/
inductive Forest where
  | nil
  | data (tag : DataTag) (text : String) (next : Forest)
  | node (kind : NodeKind) (location : Option Location) (children next : Forest)
deriving DecidableEq, Repr

/-- A construct with its children. -/
structure Node where
  kind : NodeKind
  /-- The extent; `none` for a construct that was never finished. -/
  location : Option Location
  children : Forest
deriving DecidableEq, Repr

/-- One child of a node. -/
inductive Element where
  | data (tag : DataTag) (text : String)
  | node (n : Node)
deriving DecidableEq, Repr

namespace Forest

/-- One forest behind the other. -/
def append : Forest → Forest → Forest
  | nil, g => g
  | data tag text next, g => data tag text (next.append g)
  | node kind location children next, g => node kind location children (next.append g)

instance : Append Forest := ⟨append⟩

def ofData (tag : DataTag) (text : String) : Forest := data tag text nil

def ofNode (n : Node) : Forest := node n.kind n.location n.children nil

/-- The children one by one. -/
def toList : Forest → List Element
  | nil => []
  | data tag text next => .data tag text :: next.toList
  | node kind location children next => .node ⟨kind, location, children⟩ :: next.toList

/-- The text of everything in the forest, trivia included. -/
def text : Forest → String
  | nil => ""
  | data _ text next => text ++ next.text
  | node _ _ children next => children.text ++ next.text

/-- The nodes of one kind at any depth, a node before those inside it. -/
def findAll (wanted : NodeKind) : Forest → List Node
  | nil => []
  | data _ _ next => next.findAll wanted
  | node kind location children next =>
    (if kind = wanted then [⟨kind, location, children⟩] else []) ++
      children.findAll wanted ++ next.findAll wanted

@[simp] theorem nil_append (f : Forest) : nil ++ f = f := rfl

@[simp] theorem data_append (tag : DataTag) (text : String) (next f : Forest) :
    data tag text next ++ f = data tag text (next ++ f) := rfl

@[simp] theorem node_append (kind : NodeKind) (location : Option Location)
    (children next f : Forest) :
    node kind location children next ++ f = node kind location children (next ++ f) := rfl

@[simp] theorem append_nil (f : Forest) : f ++ nil = f := by
  induction f with
  | nil => rfl
  | data tag text next ih => simp [ih]
  | node kind location children next _ ih => simp [ih]

theorem append_assoc (f g h : Forest) : f ++ g ++ h = f ++ (g ++ h) := by
  induction f with
  | nil => rfl
  | data tag text next ih => simp [ih]
  | node kind location children next _ ih => simp [ih]

@[simp] theorem toList_append (f g : Forest) : (f ++ g).toList = f.toList ++ g.toList := by
  induction f with
  | nil => rfl
  | data tag text next ih => simp [toList, ih]
  | node kind location children next _ ih => simp [toList, ih]

@[simp] theorem text_append (f g : Forest) : (f ++ g).text = f.text ++ g.text := by
  induction f with
  | nil => simp [text]
  | data tag text' next ih => simp [text, ih, String.append_assoc]
  | node kind location children next _ ih => simp [text, ih, String.append_assoc]

end Forest

namespace Node

/-- A node with nothing in it yet. -/
def opened (kind : NodeKind) : Node := ⟨kind, none, .nil⟩

/-- The node with one more child. -/
def withChild (n : Node) (child : Forest) : Node := { n with children := n.children ++ child }

/-- The text of the node, trivia included. -/
def text (n : Node) : String := n.children.text

/-- The children that are nodes. -/
def nodes (n : Node) : List Node :=
  n.children.toList.filterMap fun
    | .node n => some n
    | .data .. => none

/-- The children that are data, without trivia. What is said of the content of a node is said of
this list, so that blanks and comments never matter to it. -/
def data (n : Node) : List (DataTag × String) :=
  n.children.toList.filterMap fun
    | .data tag text => if tag.isTrivia then none else some (tag, text)
    | .node _ => none

/-- The first child of one kind. -/
def child? (n : Node) (kind : NodeKind) : Option Node :=
  n.nodes.find? (·.kind == kind)

/-- The nodes of one kind below this one, a node before those inside it. -/
def findAll (n : Node) (kind : NodeKind) : List Node := n.children.findAll kind

end Node

end Heddle
