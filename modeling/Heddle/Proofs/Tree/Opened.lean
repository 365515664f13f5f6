import Heddle.Proofs.Tree.Pruned
import Heddle.Proofs.Tree.Unplaced

/-!
# What is open at an event

Every start opens a node and every stop closes the innermost one, so a sequence of events says at
each of its places which nodes are open there (`Event.opened`). A builder has exactly these on its
stack, whatever the events are.

The events of a trace leave open what was open before (`Trace.opened_events`), and between them
**never more nodes are open than the trace is high** (`Trace.within_events`). So a bound on the
height of a trace is a bound on everything that is built from its events: on the stack of the
builder, and on the tree, from which nodes are left out but none put in.

With each open node the text can be kept that was reported in front of it (`Event.Front`). So an
event can be told *which* string it stands in, and not only that it stands in one.
-/

set_option autoImplicit false

namespace Heddle

/-- The kinds of the open nodes behind an event, innermost first. -/
def Event.onto (kinds : List NodeKind) : Event → List NodeKind
  | .start kind => kind :: kinds
  | .stop _ => kinds.tail
  | .data .. | .location _ | .error _ | .commit => kinds

/-- The kinds of the open nodes behind events. -/
def Event.opened (kinds : List NodeKind) (es : List Event) : List NodeKind :=
  es.foldl Event.onto kinds

namespace Event

@[simp] theorem opened_nil (kinds : List NodeKind) : opened kinds [] = kinds := rfl

@[simp] theorem opened_cons (kinds : List NodeKind) (e : Event) (es : List Event) :
    opened kinds (e :: es) = opened (e.onto kinds) es := rfl

@[simp] theorem opened_append (kinds : List NodeKind) (xs ys : List Event) :
    opened kinds (xs ++ ys) = opened (opened kinds xs) ys :=
  List.foldl_append

/-- One of two lists is where the event is. Statements about every event of a report are proved
over its parts with this. -/
theorem eq_append_cons_cases {xs ys reported after : List Event} {e : Event}
    (h : xs ++ ys = reported ++ e :: after) :
    (∃ mid, xs = reported ++ e :: mid ∧ after = mid ++ ys) ∨
      ∃ mid, reported = xs ++ mid ∧ ys = mid ++ e :: after := by
  rcases List.append_eq_append_iff.1 h with ⟨mid, hr, hy⟩ | ⟨mid, hx, hy⟩
  · exact .inr ⟨mid, hr, hy⟩
  · cases mid with
    | nil => exact .inr ⟨[], by simpa using hx.symm, by simpa using hy.symm⟩
    | cons e' mid =>
      obtain ⟨rfl, ha⟩ := List.cons.inj hy
      exact .inl ⟨mid, hx, ha⟩

/-- At no place among the events are more than `n` nodes open. Every prefix of the events is
looked at, so it says more than what is open in the end. -/
def Within (n : Nat) (kinds : List NodeKind) (es : List Event) : Prop :=
  ∀ before, before <+: es → (opened kinds before).length ≤ n

namespace Within

variable {n : Nat} {kinds : List NodeKind}

theorem nil (h : kinds.length ≤ n) : Within n kinds [] := by
  intro before hb
  obtain rfl := List.prefix_nil.1 hb
  exact h

theorem cons {e : Event} {es : List Event} (h : kinds.length ≤ n)
    (hes : Within n (e.onto kinds) es) : Within n kinds (e :: es) := by
  intro before hb
  rcases List.prefix_cons_iff.1 hb with rfl | ⟨mid, rfl, hmid⟩
  · exact h
  · exact hes mid hmid

theorem append {xs ys : List Event} (hx : Within n kinds xs)
    (hy : Within n (opened kinds xs) ys) : Within n kinds (xs ++ ys) := by
  rintro before ⟨after, hb⟩
  rcases List.append_eq_append_iff.1 hb with ⟨mid, rfl, -⟩ | ⟨mid, rfl, rfl⟩
  · exact hx before ⟨mid, rfl⟩
  · rw [opened_append]
    exact hy mid ⟨after, rfl⟩

end Within

end Event

/-! ## The text in front of open nodes -/

/-- What is in front of an event: the text, and the nodes that are open, innermost first, each
with the text in front of it. The text of a node in front of which nothing is missing tells where
in the source the node begins. -/
structure Event.Front where
  nodes : List (NodeKind × List Char) := []
  text : List Char := []

namespace Event.Front

/-- What is in front of the next event. -/
def step (front : Front) : Event → Front
  | .start kind => { front with nodes := (kind, front.text) :: front.nodes }
  | .stop _ => { front with nodes := front.nodes.tail }
  | .data _ text => { front with text := front.text ++ text.toList }
  | .location _ | .error _ | .commit => front

/-- What is in front of an event that more events are in front of. -/
def after (front : Front) (es : List Event) : Front := es.foldl step front

/-- What is in front of an event that more text is in front of. -/
def past (front : Front) (cs : List Char) : Front := { front with text := front.text ++ cs }

/-- The text in front of the innermost string that is open. Strings nest, since the expression of
a placeholder may have strings in it. -/
def string? (front : Front) : Option (List Char) :=
  (front.nodes.find? (·.1 == .string)).map (·.2)

@[simp] theorem after_nil (front : Front) : front.after [] = front := rfl

@[simp] theorem after_cons (front : Front) (e : Event) (es : List Event) :
    front.after (e :: es) = (front.step e).after es := rfl

@[simp] theorem after_append (front : Front) (xs ys : List Event) :
    front.after (xs ++ ys) = (front.after xs).after ys :=
  List.foldl_append

/-- The nodes that are kept with their texts are those that are open. -/
theorem kinds_after (front : Front) (es : List Event) :
    (front.after es).nodes.map (·.1) = opened (front.nodes.map (·.1)) es := by
  induction es generalizing front with
  | nil => rfl
  | cons e es ih =>
    rw [after_cons, ih, opened_cons]
    cases e with
    | stop kind => rw [step, onto, List.map_tail]
    | _ => rfl

/-- More text opens no string. -/
@[simp] theorem string?_past (front : Front) (cs : List Char) :
    (front.past cs).string? = front.string? := rfl

@[simp] theorem past_nil (front : Front) : front.past [] = front := by
  simp [past]

theorem past_append (front : Front) (xs ys : List Char) :
    front.past (xs ++ ys) = (front.past xs).past ys := by
  simp [past]

/-- A string that starts is the innermost one. -/
theorem string?_open {front : Front} {kind : NodeKind} (h : kind ≠ .string) :
    (front.step (.start kind)).string? = front.string? := by
  simp [string?, step, h]

/-- Where the innermost string begins, a string is open. -/
theorem string_mem {es : List Event} {begun : List Char}
    (h : (({} : Front).after es).string? = some begun) : .string ∈ opened [] es := by
  obtain ⟨⟨kind, text⟩, hfind, -⟩ := Option.map_eq_some_iff.1 h
  have hsome := List.find?_some hfind
  have hkinds : (({} : Front).after es).nodes.map (·.1) = opened [] es := kinds_after {} es
  rw [← hkinds]
  exact List.mem_map.2 ⟨_, List.mem_of_find?_eq_some hfind, beq_iff_eq.1 hsome⟩

end Event.Front

/-! ## Traces -/

namespace Trace

/-- How deep the nodes of a trace nest, those that were given up included. -/
def height : Trace → Nat
  | nil => 0
  | note _ next => next.height
  | node _ inside _ next => max (inside.height + 1) next.height

@[simp] theorem height_append (t u : Trace) : (t ++ u).height = max t.height u.height := by
  induction t with
  | nil => simp [height]
  | note n next ih => exact ih
  | node kind inside committed next _ ih => simp [height, ih, Nat.max_assoc]

@[simp] theorem height_ofNode (kind : NodeKind) (inside : Trace) (committed : Bool) :
    (ofNode kind inside committed).height = inside.height + 1 := by
  simp [ofNode, height]

/-- The events of a node. -/
theorem events_node (kind : NodeKind) (inside : Trace) (committed : Bool) (next : Trace) :
    (node kind inside committed next).events =
      .start kind :: (inside.events ++ (.stop kind ::
        ((if committed then [.commit] else []) ++ next.events))) := by
  simp [events]

@[simp] theorem events_ofNode (kind : NodeKind) (inside : Trace) (committed : Bool) :
    (ofNode kind inside committed).events =
      .start kind :: (inside.events ++ (.stop kind :: if committed then [.commit] else [])) := by
  simp [ofNode, events]

/-- A commit opens and closes nothing. -/
theorem opened_commit (kinds : List NodeKind) (committed : Bool) :
    Event.opened kinds (if committed then [.commit] else []) = kinds := by
  cases committed <;> rfl

/-- **Behind a trace the same nodes are open as in front of it.** A trace is made of whole nodes.
-/
@[simp] theorem opened_events (t : Trace) (kinds : List NodeKind) :
    Event.opened kinds t.events = kinds := by
  induction t generalizing kinds with
  | nil => rfl
  | note n next ih =>
    rw [events, Event.opened_append, ih]
    cases n <;> rfl
  | node kind inside committed next ihi ihn =>
    rw [events_node, Event.opened_cons, Event.opened_append, ihi, Event.opened_cons,
      Event.opened_append, opened_commit, ihn]
    rfl

/-- Behind a trace its text is added to what was in front of it, and nothing else changes. -/
@[simp] theorem after_events (t : Trace) (front : Event.Front) :
    front.after t.events = front.past t.text := by
  induction t generalizing front with
  | nil => simp [events, Event.Front.past]
  | note n next ih =>
    have hnote : front.after n.event?.toList = front.past n.chars := by
      cases n <;> simp [Note.event?, Note.chars, Event.Front.step, Event.Front.past]
    rw [events, Event.Front.after_append, hnote, ih, ← Event.Front.past_append]
    simp [text, notes]
  | node kind inside committed next ihi ihn =>
    rw [events_node, Event.Front.after_cons, Event.Front.after_append, ihi,
      Event.Front.after_cons, Event.Front.after_append, ihn]
    cases committed <;> simp [Event.Front.step, Event.Front.past, text, notes]

/-- **Inside a trace no more nodes are opened than it is high.** Besides the nodes of the trace
those around it are open, so their number is added. -/
theorem within_events (t : Trace) {kinds : List NodeKind} {n : Nat}
    (h : kinds.length + t.height ≤ n) : Event.Within n kinds t.events := by
  have hkinds : kinds.length ≤ n := by omega
  induction t generalizing kinds with
  | nil => exact .nil hkinds
  | note note next ih =>
    cases note with
    | fault start stop => exact ih h hkinds
    | _ => exact .cons hkinds (ih h hkinds)
  | node kind inside committed next ihi ihn =>
    rw [height] at h
    have hnext : Event.Within n kinds next.events := ihn (by omega) hkinds
    have hbehind : Event.Within n kinds ((if committed then [.commit] else []) ++ next.events) := by
      cases committed with
      | false => exact hnext
      | true => exact .cons hkinds hnext
    have hinside : (kind :: kinds).length + inside.height ≤ n := by
      rw [List.length_cons]
      omega
    have hopen : (kind :: kinds).length ≤ n := by omega
    rw [events_node]
    apply Event.Within.cons hkinds
    apply Event.Within.append (ihi hinside hopen)
    rw [opened_events]
    exact .cons hopen hbehind

/-- A tree is no higher than the trace it is built from, as nodes are only left out. -/
theorem height_forest_le (t : Trace) : t.forest.height ≤ t.height := by
  induction t with
  | nil => exact Nat.le_refl _
  | note n next ih =>
    cases n with
    | _ => exact ih
  | node kind inside committed next ihi ihn =>
    rw [forest, height]
    split
    · rw [Forest.height]
      omega
    · omega

end Trace

/-! ## Builders -/

namespace Builder

/-- One event changes the stack of a builder as it changes what is open. This holds of events that
do not fit as well, with which a builder does nothing else to its stack. -/
theorem kinds_step (b : Builder) (e : Event) :
    (b.step e).1.stack.map (·.kind) = e.onto (b.stack.map (·.kind)) := by
  obtain ⟨stack, pending, root, errors⟩ := b
  cases e with
  | start kind => rfl
  | data tag text | location l => cases stack <;> rfl
  | error d => rfl
  | stop kind => cases stack <;> rfl
  | commit =>
    cases pending with
    | none => rfl
    | some n => cases stack <;> rfl

/-- **The stack of a builder is what is open**, in whichever order the events come. -/
theorem kinds_feed (b : Builder) (es : List Event) :
    (b.feed es).1.stack.map (·.kind) = Event.opened (b.stack.map (·.kind)) es := by
  induction es generalizing b with
  | nil => rfl
  | cons e es ih => rw [feed_cons, ih, kinds_step, Event.opened_cons]

theorem depth_feed (es : List Event) :
    (({} : Builder).feed es).1.depth = (Event.opened [] es).length := by
  have h := congrArg List.length (kinds_feed {} es)
  rwa [List.length_map] at h

end Builder

end Heddle
