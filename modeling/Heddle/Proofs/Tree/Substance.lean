import Heddle.Proofs.Reading.Spelled

/-!
# Nodes that are never empty

Most constructs cannot be made of trivia alone, and do not even end with a node that can. Only three
kinds of nodes can be empty: the document, what was skipped behind an error, and what combines two
selectors, which may be a mere comment. That no other node ends with one of these is read off the
expressions of the grammar (`NodeKind.children_isSubstantial`), so **a tree whose last child is not
empty contains significant data** (`Trace.isSubstantial_of_getLast?`), however the node is nested
that has it.
-/

set_option autoImplicit false

namespace Heddle

open Text

/-! ## What an expression says of a word -/

namespace Rule

variable {p : Symbol → Bool} {r : Rule} {w : List Symbol}

/-- Every symbol of every word is one of these. -/
def consistsOf (p : Symbol → Bool) : Rule → Bool
  | .zero | .epsilon => true
  | .char a => p a
  | .plus r s | .comp r s => consistsOf p r && consistsOf p s
  | .star r => consistsOf p r

/-- Every word that is not empty ends with one of these. Behind a part that can be empty the word
may end with the part in front of it, so the expression of that part is asked too. -/
def endsWith (p : Symbol → Bool) : Rule → Bool
  | .zero | .epsilon => true
  | .char a => p a
  | .plus r s => endsWith p r && endsWith p s
  | .comp r s => endsWith p s && (!s.matchEpsilon || endsWith p r)
  | .star r => endsWith p r

/-- The test for the empty word is right. Mathlib has this test as a part of its matcher. -/
theorem matchEpsilon_of_nil_mem (h : [] ∈ r.matches') : r.matchEpsilon = true :=
  (RegularExpression.rmatch_iff_matches' r []).2 h

/-- The test on expressions is right: every symbol of a word is one of these. -/
theorem of_consistsOf (h : r.consistsOf p = true) (hw : w ∈ r.matches') : ∀ a ∈ w, p a = true := by
  induction r generalizing w with
  | zero => cases hw
  | epsilon => cases hw; exact nofun
  | char a => cases hw; simpa [consistsOf] using h
  | plus r s ihr ihs =>
    obtain ⟨hr, hs⟩ := Bool.and_eq_true_iff.1 h
    exact hw.elim (ihr hr) (ihs hs)
  | comp r s ihr ihs =>
    obtain ⟨hr, hs⟩ := Bool.and_eq_true_iff.1 h
    obtain ⟨x, hx, y, hy, rfl⟩ := hw
    intro a ha
    exact (List.mem_append.1 ha).elim (ihr hr hx a) (ihs hs hy a)
  | star r ih =>
    obtain ⟨words, rfl, hwords⟩ := hw
    intro a ha
    obtain ⟨x, hx, ha⟩ := List.mem_flatten.1 ha
    exact ih h (hwords x hx) a ha

/-- The test on expressions is right: the last symbol of a word is one of these. The induction is
on the expression, and over a star on the number of its words. -/
theorem of_endsWith (h : r.endsWith p = true) (hw : w ∈ r.matches') :
    ∀ a, w.getLast? = some a → p a = true := by
  induction r generalizing w with
  | zero => cases hw
  | epsilon => cases hw; exact nofun
  | char a => cases hw; rintro b ⟨⟩; exact h
  | plus r s ihr ihs =>
    obtain ⟨hr, hs⟩ := Bool.and_eq_true_iff.1 h
    exact hw.elim (ihr hr) (ihs hs)
  | comp r s ihr ihs =>
    obtain ⟨hs, hr⟩ := Bool.and_eq_true_iff.1 h
    obtain ⟨x, hx, y, hy, rfl⟩ := hw
    intro a ha
    change (x ++ y).getLast? = some a at ha
    rw [List.getLast?_append] at ha
    cases hl : y.getLast? with
    | some b => rw [hl] at ha; exact ihs hs hy a (hl.trans ha)
    | none =>
      -- The second part is empty, which its expression allows.
      obtain rfl := List.getLast?_eq_none_iff.1 hl
      rw [matchEpsilon_of_nil_mem hy] at hr
      exact ihr hr hx a ha
  | star r ih =>
    obtain ⟨words, rfl, hwords⟩ := hw
    intro a ha
    induction words with
    | nil => cases ha
    | cons x xs ihx =>
      rw [List.flatten_cons, List.getLast?_append] at ha
      cases hl : xs.flatten.getLast? with
      | some b =>
        rw [hl] at ha
        exact ihx (fun y hy => hwords y (List.mem_cons_of_mem _ hy)) (hl.trans ha)
      | none =>
        rw [hl] at ha
        exact ih h (hwords x List.mem_cons_self) a ha

end Rule

/-! ## Kinds of nodes -/

/-- The kinds of nodes that always contain significant data. That they do is
`children_isSubstantial`, by evaluation of both tests on the expression of each kind. -/
def NodeKind.isSubstantial : NodeKind → Bool
  | document | invalid | combinator => false
  | _ => true

/-- Data that is no trivia, and nodes that contain some. -/
def Symbol.isSubstantial : Symbol → Bool
  | node kind => kind.isSubstantial
  | sign .. | data _ => true

def Symbol.isNode : Symbol → Bool
  | node _ => true
  | _ => false

namespace NodeKind

/-- A node that always contains significant data has children, and ends with significant data or
with such a node. -/
theorem children_isSubstantial {kind : NodeKind} (h : kind.isSubstantial = true) :
    kind.children.matchEpsilon = false ∧
      kind.children.endsWith Symbol.isSubstantial = true := by
  cases kind <;> first | exact ⟨rfl, rfl⟩ | cases h

/-- No document is inside of a node. -/
theorem children_ne_document (kind : NodeKind) :
    kind.children.consistsOf (· != .node .document) = true := by
  cases kind <;> rfl

/-- What was skipped and what combines two selectors is data, so no node nests in it. -/
theorem children_data {kind : NodeKind} (h : kind.isSubstantial = false) (hd : kind ≠ .document) :
    kind.children.consistsOf (!·.isNode) = true := by
  cases kind <;> first | exact absurd rfl hd | rfl | cases h

end NodeKind

/-! ## Traces -/

namespace Trace

/-- Whether the trace contains significant data, in nodes that were given up or not. Nodes that
were given up count, since the place that a reading has reached does not go back when a node is
dropped. -/
def isSubstantial (t : Trace) : Bool := t.notes.any (·.isSignificant)

theorem isSubstantial_note (n : Note) (next : Trace) :
    (note n next).isSubstantial = (n.isSignificant || next.isSubstantial) := rfl

theorem isSubstantial_node (kind : NodeKind) (inside : Trace) (committed : Bool) (next : Trace) :
    (node kind inside committed next).isSubstantial =
      (inside.isSubstantial || next.isSubstantial) := by
  simp [isSubstantial, notes]

/-- What was reached is not behind where the trace begins. -/
theorem le_reached (t : Trace) {start reach : Nat} (h : reach ≤ start) :
    reach ≤ t.reached start reach ∧ t.reached start reach ≤ start + byteSize t.text := by
  induction t generalizing start reach with
  | nil => exact ⟨Nat.le_refl _, by simpa using h⟩
  | note n next ih =>
    rw [reached, text_note, byteSize_append]
    obtain ⟨h₁, h₂⟩ := @ih (start + byteSize n.chars)
      (if n.isSignificant then start + byteSize n.chars else reach) (by split <;> omega)
    refine ⟨Nat.le_trans ?_ h₁, by omega⟩
    split <;> omega
  | node kind inside committed next ihi ihn =>
    rw [reached, text_node, byteSize_append]
    obtain ⟨h₁, h₂⟩ := ihi h
    obtain ⟨h₃, h₄⟩ := ihn h₂
    omega

/-- Without significant data nothing new is reached. -/
theorem reached_of_not (t : Trace) (h : t.isSubstantial = false) (start reach : Nat) :
    t.reached start reach = reach := by
  induction t generalizing start reach with
  | nil => rfl
  | note n next ih =>
    obtain ⟨hn, hnext⟩ := Bool.or_eq_false_iff.1 (isSubstantial_note n next ▸ h)
    rw [reached, ih hnext, hn]
    rfl
  | node kind inside committed next ihi ihn =>
    obtain ⟨hi, hn⟩ := Bool.or_eq_false_iff.1 (isSubstantial_node kind inside committed next ▸ h)
    rw [reached, ihn hn, ihi hi]

/-- Significant data decides what is reached, and lies behind the beginning of the trace. What had
been reached before does not matter then. -/
theorem reached_of_isSubstantial (t : Trace) (h : t.isSubstantial = true) (start : Nat) :
    ∃ byte, start ≤ byte ∧ ∀ reach, t.reached start reach = byte := by
  induction t generalizing start with
  | nil => cases h
  | note n next ih =>
    rw [isSubstantial_note, Bool.or_eq_true] at h
    cases hnext : next.isSubstantial with
    | true =>
      obtain ⟨byte, hle, hb⟩ := ih hnext (start + byteSize n.chars)
      exact ⟨byte, by omega, fun reach => hb _⟩
    | false =>
      have hn := h.resolve_right (by rw [hnext]; nofun)
      refine ⟨start + byteSize n.chars, by omega, fun reach => ?_⟩
      rw [reached, hn, reached_of_not _ hnext]
      rfl
  | node kind inside committed next ihi ihn =>
    rw [isSubstantial_node, Bool.or_eq_true] at h
    cases hnext : next.isSubstantial with
    | true =>
      obtain ⟨byte, hle, hb⟩ := ihn hnext (start + byteSize inside.text)
      exact ⟨byte, by omega, fun reach => hb _⟩
    | false =>
      obtain ⟨byte, hle, hb⟩ := ihi (h.resolve_right (by rw [hnext]; nofun)) start
      refine ⟨byte, hle, fun reach => ?_⟩
      rw [reached, hb, reached_of_not _ hnext]

/-- **What ends with something substantial is so itself.** The induction is on the trace. If the
last symbol is a node, the expression of its kind says that its children end with something
substantial, and the trace inside has it by induction. -/
theorem isSubstantial_of_getLast? (t : Trace) (hd : t.forest.IsDerived) {a : Symbol}
    (hl : t.forest.symbols.getLast? = some a) (ha : a.isSubstantial = true) :
    t.isSubstantial = true := by
  induction t generalizing a with
  | nil => cases hl
  | note n next ih =>
    rw [isSubstantial_note]
    cases n with
    | data tag text =>
      change (Symbol.ofChild tag text ++ next.forest.symbols).getLast? = some a at hl
      rw [List.getLast?_append] at hl
      cases hnext : next.forest.symbols.getLast? with
      | some b =>
        rw [hnext] at hl
        obtain rfl : b = a := Option.some.inj hl
        rw [ih hd hnext ha, Bool.or_true]
      | none =>
        rw [hnext, Option.none_or, Symbol.ofChild] at hl
        rw [Note.isSignificant]
        cases htag : tag.isTrivia with
        | true => rw [htag] at hl; cases hl
        | false => rfl
    | _ => rw [ih hd hl ha, Bool.or_true]
  | node kind inside committed next ihi ihn =>
    rw [isSubstantial_node]
    cases committed with
    | false => rw [ihn hd hl ha, Bool.or_true]
    | true =>
      obtain ⟨hc, hi, hd⟩ := hd
      change (.node kind :: next.forest.symbols).getLast? = some a at hl
      rw [List.getLast?_cons] at hl
      cases hnext : next.forest.symbols.getLast? with
      | some b =>
        rw [hnext] at hl
        obtain rfl : b = a := Option.some.inj hl
        rw [ihn hd hnext ha, Bool.or_true]
      | none =>
        rw [hnext] at hl
        obtain rfl : .node kind = a := Option.some.inj hl
        obtain ⟨hne, hends⟩ := NodeKind.children_isSubstantial ha
        -- The node has children, and the last of them is substantial.
        cases hlast : inside.forest.symbols.getLast? with
        | none =>
          rw [List.getLast?_eq_none_iff.1 hlast] at hc
          rw [Rule.matchEpsilon_of_nil_mem hc] at hne
          cases hne
        | some b => rw [ihi hi hlast (Rule.of_endsWith hends hc b hlast), Bool.true_or]

end Trace

end Heddle
