import Heddle.Proofs.Document.Derivation
import Heddle.Proofs.Document.Locations
import Heddle.Proofs.Tree.Substance

/-!
# Extents nest

The extents of the children of a node lie one behind the other in their order, and inside the extent
of the node (`ofSource_nests`). There is one exception, in the document: **what was skipped behind
the last error can be nothing at all, and then it lies where the error is, behind trivia that the
document does not reach** (`not_nests_trailing`).

An extent begins where the reader was and ends behind the last significant data. So an extent can
only lie outside of another one if it is empty and there is nothing significant behind it. Empty
are only what was skipped and what combines two selectors, and no construct but the document ends
with one of them (`Trace.isSubstantial_of_getLast?`).
-/

set_option autoImplicit false

namespace Heddle

open Text

namespace Forest

/-- The children that are nodes. -/
def nodes (f : Forest) : List Node :=
  f.toList.filterMap fun
    | .node n => some n
    | .data .. => none

/-- Only the last node may be without anything significant. It holds of the children of a
document, where statements are read or skipped, and there only. -/
def EndsIdle : Forest → Prop
  | nil => True
  | data _ _ next => next.EndsIdle
  | node _ _ children next => (children.symbols = [] → next.nodes = []) ∧ next.EndsIdle

@[simp] theorem nodes_nil : nil.nodes = [] := rfl

@[simp] theorem nodes_data (tag : DataTag) (text : String) (next : Forest) :
    (data tag text next).nodes = next.nodes := rfl

@[simp] theorem nodes_node (kind : NodeKind) (location : Option Location)
    (children next : Forest) :
    (node kind location children next).nodes = ⟨kind, location, children⟩ :: next.nodes := rfl

@[simp] theorem nodes_append (f g : Forest) : (f ++ g).nodes = f.nodes ++ g.nodes := by
  simp [nodes]

theorem mem_symbols_of_mem_nodes {f : Forest} {c : Node} (h : c ∈ f.nodes) :
    .node c.kind ∈ f.symbols := by
  induction f with
  | nil => cases h
  | data tag text next ih => exact List.mem_append_right _ (ih h)
  | node kind location children next _ ih =>
    rcases List.mem_cons.1 (nodes_node .. ▸ h) with rfl | h
    · exact List.mem_cons_self
    · exact List.mem_cons_of_mem _ (ih h)

/-- A node among the symbols is one of the forest. -/
theorem nodes_ne_nil {f : Forest} {a : Symbol} (ha : a ∈ f.symbols) (hn : a.isNode = true) :
    f.nodes ≠ [] := by
  induction f with
  | nil => cases ha
  | data tag text next ih =>
    rcases List.mem_append.1 ha with h | h
    · obtain rfl : a = Symbol.ofData tag text := by
        unfold Symbol.ofChild at h
        split at h
        · cases h
        · exact List.mem_singleton.1 h
      cases tag <;> cases hn
    · exact ih h
  | node kind location children next _ ih => exact List.cons_ne_nil _ _

/-- Without a node among the symbols there is no node. -/
theorem nodes_eq_nil {f : Forest} (h : ∀ a ∈ f.symbols, (!a.isNode) = true) : f.nodes = [] :=
  List.eq_nil_iff_forall_not_mem.2 fun _ hc => by cases h _ (mem_symbols_of_mem_nodes hc)

/-- A node nests less deep than the forest. -/
theorem height_of_mem_nodes {f : Forest} {c : Node} (h : c ∈ f.nodes) :
    c.children.height + 1 ≤ f.height := by
  induction f with
  | nil => cases h
  | data tag text next ih => exact ih h
  | node kind location children next _ ih =>
    rcases List.mem_cons.1 h with rfl | h
    · exact Nat.le_max_left _ _
    · exact Nat.le_trans (ih h) (Nat.le_max_right _ _)

theorem EndsIdle.right {f g : Forest} (h : (f ++ g).EndsIdle) : g.EndsIdle := by
  induction f with
  | nil => exact h
  | data tag text next ih => exact ih h
  | node kind location children next _ ih => exact ih h.2

/-- Behind nodes that have something significant anything may come that ends so. -/
theorem EndsIdle.append {f g : Forest} (hf : ∀ c ∈ f.nodes, c.children.symbols ≠ [])
    (hg : g.EndsIdle) : (f ++ g).EndsIdle := by
  induction f with
  | nil => exact hg
  | data tag text next ih => exact ih hf
  | node kind location children next _ ih =>
    exact ⟨fun h => absurd h (hf _ List.mem_cons_self),
      ih fun c hc => hf c (List.mem_cons_of_mem _ hc)⟩

theorem EndsIdle.of_nodes {f : Forest} (hf : ∀ c ∈ f.nodes, c.children.symbols ≠ []) :
    f.EndsIdle := by
  rw [← f.append_nil]
  exact .append hf trivial

theorem IsDerived.of_nodes {f : Forest} (h : f.IsDerived) : ∀ c ∈ f.nodes, c.IsDerived := by
  induction f with
  | nil => exact nofun
  | data tag text next ih => exact ih h
  | node kind location children next _ ih =>
    intro c hc
    rcases List.mem_cons.1 (nodes_node .. ▸ hc) with rfl | hc
    · exact h.1
    · exact ih h.2.2 c hc

/-- A child that is empty and has nothing significant behind it. The three parts say it of its
kind, of the symbols behind it, and of its place among the nodes. -/
structure Trails (f : Forest) (c : Node) : Prop where
  kind : c.kind.isSubstantial = false
  last : ∃ a, f.symbols.getLast? = some a ∧ a.isSubstantial = false
  idle : f.EndsIdle → f.nodes.getLast? = some c

theorem Trails.behind {f : Forest} {c : Node} (h : f.Trails c) (g : Forest) :
    (g ++ f).Trails c where
  kind := h.kind
  last := by
    obtain ⟨a, hl, ha⟩ := h.last
    exact ⟨a, by rw [symbols_append, List.getLast?_append, hl]; rfl, ha⟩
  idle hi := by rw [nodes_append, List.getLast?_append, h.idle hi.right]; rfl

end Forest

namespace Trace

/-! ## The extents of children -/

/-- The extent of a child lies in the text of the trace, and not behind what the trace reaches,
unless the child trails. What is reached is where the node around will end, so this is about the
end of an extent that is not known yet. -/
structure Holds (p : Position) (t : Trace) (c : Node) (l : Location) : Prop where
  location : c.location = some l
  offset : p.byte ≤ l.offset
  stop : l.stop ≤ p.byte + byteSize t.text
  reached : (∀ reach, l.stop ≤ t.reached p.byte reach) ∨ l.length = 0 ∧ t.forest.Trails c

theorem Holds.behind {p : Position} {u t : Trace} {c : Node} {l : Location}
    (h : t.Holds (p.past u.text) c l) : (u ++ t).Holds p c l where
  location := h.location
  offset := by have := h.offset; rw [Position.byte_past] at this; omega
  stop := by
    have := h.stop
    rw [Position.byte_past] at this
    rw [text_append, byteSize_append]
    omega
  reached := by
    refine h.reached.imp (fun hr reach => ?_) fun ⟨hl, ht⟩ => ⟨hl, ?_⟩
    · rw [reached_append, ← Position.byte_past]
      exact hr _
    · rw [forest_append]
      exact ht.behind _

variable {file : Option String} {p : Position} {t inside next : Trace} {kind : NodeKind}

/-- Something that is empty has a kind that can be, and nothing significant in it. The kind is
told by the derivation: most regular expressions ask for a symbol that has a text. -/
theorem symbols_of_not_isSubstantial (hs : inside.forest.symbols ∈ kind.children.matches')
    (hd : inside.forest.IsDerived) (hk : kind ≠ .document) (hi : inside.isSubstantial = false) :
    kind.isSubstantial = false ∧ inside.forest.symbols = [] := by
  have hlast (a : Symbol) (ha : inside.forest.symbols.getLast? = some a) :
      a.isSubstantial = false := by
    cases has : a.isSubstantial with
    | false => rfl
    | true => rw [isSubstantial_of_getLast? inside hd ha has] at hi; cases hi
  have hkind : kind.isSubstantial = false := by
    cases hkind : kind.isSubstantial with
    | false => rfl
    | true =>
      obtain ⟨hne, hends⟩ := NodeKind.children_isSubstantial hkind
      cases hl : inside.forest.symbols.getLast? with
      | none =>
        rw [List.getLast?_eq_none_iff.1 hl] at hs
        rw [Rule.matchEpsilon_of_nil_mem hs] at hne
        cases hne
      | some a => rw [← hlast a hl, Rule.of_endsWith hends hs a hl]
  refine ⟨hkind, ?_⟩
  cases hl : inside.forest.symbols.getLast? with
  | none => exact List.getLast?_eq_none_iff.1 hl
  | some a =>
    have ha := Rule.of_consistsOf (NodeKind.children_data hkind hk) hs a (List.mem_of_getLast? hl)
    have := hlast a hl
    cases a with
    | node kind => cases ha
    | _ => cases this

/-- A finished node comes first among the children, with its extent. -/
theorem forest_located_node (file : Option String) (p : Position) (kind : NodeKind)
    (inside next : Trace) :
    (node kind (inside ++ .ofNote (.location (inside.extent file p))) true next).forest =
      .node kind (some (inside.extent file p)) inside.forest next.forest := by
  rw [forest, location?_append, forest_append, forest_location, Forest.append_nil]
  rfl

/-- What is reached behind a finished node: its extent reaches nothing. -/
theorem reached_located_node (file : Option String) (p : Position) (kind : NodeKind)
    (inside next : Trace) (reach : Nat) :
    (node kind (inside ++ .ofNote (.location (inside.extent file p))) true next).reached
      p.byte reach =
      next.reached (p.byte + byteSize inside.text) (inside.reached p.byte reach) := by
  rw [reached, reached_append, text_append, text_location, List.append_nil]
  rfl

/-- A first node that is empty and has nothing significant behind it trails. -/
theorem trails_first {l : Option Location} (hd : next.forest.IsDerived)
    (hk : kind.isSubstantial = false) (hi : inside.forest.symbols = [])
    (hnext : next.isSubstantial = false) :
    (Forest.node kind l inside.forest next.forest).Trails ⟨kind, l, inside.forest⟩ where
  kind := hk
  last := by
    rw [Forest.symbols, List.getLast?_cons]
    cases hl : next.forest.symbols.getLast? with
    | none => exact ⟨_, rfl, hk⟩
    | some a =>
      refine ⟨a, rfl, ?_⟩
      cases ha : a.isSubstantial with
      | false => rfl
      | true => rw [isSubstantial_of_getLast? next hd hl ha] at hnext; cases hnext
  idle h := by
    rw [Forest.nodes_node, h.1 hi]
    rfl

/-- The node that comes first in a trace. It ends where the last significant data in it does, so
what the whole trace reaches is not in front of that, unless the node is empty and nothing
significant follows. -/
theorem holds_first (hs : inside.forest.symbols ∈ kind.children.matches')
    (hi : inside.forest.IsDerived) (hd : next.forest.IsDerived) (hk : kind ≠ .document) :
    (node kind (inside ++ .ofNote (.location (inside.extent file p))) true next).Holds p
      ⟨kind, some (inside.extent file p), inside.forest⟩ (inside.extent file p) := by
  obtain ⟨hle, hsize⟩ := inside.le_reached (Nat.le_refl p.byte)
  have hstop : (inside.extent file p).stop = inside.reached p.byte p.byte := by
    show p.byte + (inside.reached p.byte p.byte - p.byte) = _
    omega
  refine ⟨rfl, Nat.le_refl _, ?_, ?_⟩
  · rw [hstop, text_node, text_append, text_location, List.append_nil, byteSize_append]
    omega
  -- What is significant and last decides where a node ends. It is inside, or behind the node, or
  -- there is none, and then the node is empty.
  cases hin : inside.isSubstantial with
  | true =>
    obtain ⟨byte, -, hbyte⟩ := inside.reached_of_isSubstantial hin p.byte
    rw [hbyte] at hsize
    refine .inl fun reach => ?_
    rw [reached_located_node, hstop, hbyte, hbyte]
    exact (next.le_reached hsize).1
  | false =>
    have hempty := inside.reached_of_not hin p.byte p.byte
    cases hnext : next.isSubstantial with
    | true =>
      obtain ⟨byte, hle, hbyte⟩ :=
        next.reached_of_isSubstantial hnext (p.byte + byteSize inside.text)
      refine .inl fun reach => ?_
      rw [reached_located_node, hstop, hbyte, hempty]
      omega
    | false =>
      obtain ⟨hkind, hnil⟩ := symbols_of_not_isSubstantial hs hi hk hin
      refine .inr ⟨?_, ?_⟩
      · show inside.reached p.byte p.byte - p.byte = 0
        rw [hempty, Nat.sub_self]
      · rw [forest_located_node]
        exact trails_first hd hkind hnil hnext

/-- The children of what a trace leaves behind, one after the other. The induction is on the
trace, with what is in front of a child as a move of its place (`Holds.behind`). -/
theorem Located.holds (h : t.Located file p) (hd : t.forest.IsDerived)
    (hn : .node .document ∉ t.forest.symbols) :
    (∀ c ∈ t.forest.nodes, ∃ l, t.Holds p c l) ∧
      t.forest.nodes.Pairwise fun c d => ∀ l ∈ c.location, ∀ l' ∈ d.location,
        l.stop ≤ l'.offset := by
  induction h with
  | nil p => exact ⟨nofun, .nil⟩
  | @note p n next _ _ ih =>
    have hf : ∃ f, (Trace.note n next).forest = f ++ next.forest ∧ f.nodes = [] := by
      cases n with
      | data tag text => exact ⟨.ofData tag text, rfl, rfl⟩
      | _ => exact ⟨.nil, rfl, rfl⟩
    obtain ⟨f, hf, hnil⟩ := hf
    rw [hf, Forest.isDerived_append] at hd
    rw [hf, Forest.symbols_append, List.mem_append, not_or] at hn
    rw [hf, Forest.nodes_append, hnil, List.nil_append]
    obtain ⟨hh, ho⟩ := ih hd.2 hn.2
    refine ⟨fun c hc => ?_, ho⟩
    obtain ⟨l, hl⟩ := hh c hc
    have htext : (ofNote n).text = n.chars := by
      rw [ofNote, text_note, text_nil, List.append_nil]
    exact ⟨l, Holds.behind (u := .ofNote n) (by rwa [htext])⟩
  | @dropped p kind _ inside next _ _ _ ih =>
    obtain ⟨hh, ho⟩ := ih hd hn
    refine ⟨fun c hc => ?_, ho⟩
    obtain ⟨l, hl⟩ := hh c hc
    exact ⟨l, Holds.behind (u := .ofNode kind inside false) (by rwa [text_ofNode])⟩
  -- A node comes first among the children; those behind it begin where its text ends, or later.
  | @committed p kind inside next _ _ _ ih =>
    rw [forest_located_node] at hd hn ⊢
    obtain ⟨hs, hi, hd⟩ := hd
    rw [Forest.symbols, List.mem_cons, not_or] at hn
    obtain ⟨hh, ho⟩ := ih hd hn.2
    have hfirst := @holds_first file p inside next kind hs hi hd (fun hk => hn.1 (hk ▸ rfl))
    rw [Forest.nodes_node]
    refine ⟨fun c hc => ?_, .cons (fun d hd l hl l' hl' => ?_) ho⟩
    · rcases List.mem_cons.1 hc with rfl | hc
      · exact ⟨_, hfirst⟩
      · obtain ⟨l, hl⟩ := hh c hc
        refine ⟨l, Holds.behind (u := .ofNode kind _ true) ?_⟩
        rwa [text_ofNode, text_append, text_location, List.append_nil]
    · obtain ⟨l'', hl''⟩ := hh d hd
      obtain rfl : l'' = l' := Option.some.inj (hl''.location.symm.trans hl')
      obtain rfl : inside.extent file p = l := Option.some.inj hl
      have hbehind := hl''.offset
      have := (inside.le_reached (Nat.le_refl p.byte)).2
      rw [Position.byte_past] at hbehind
      show p.byte + (inside.reached p.byte p.byte - p.byte) ≤ _
      omega

end Trace

/-! ## Nodes -/

/-- The extents of the children of a node lie one behind the other inside the extent of the node.
Only what was skipped at the end of a document may be empty and lie behind the document. -/
structure Node.Nests (n : Node) (m : Location) : Prop where
  location : n.location = some m
  ordered : n.nodes.Pairwise fun c d => ∀ l ∈ c.location, ∀ l' ∈ d.location, l.stop ≤ l'.offset
  inside : ∀ c ∈ n.nodes, ∃ l, c.location = some l ∧ m.offset ≤ l.offset ∧
    (l.stop ≤ m.stop ∨ n.kind = .document ∧ n.nodes.getLast? = some c ∧ c.kind = .invalid ∧
      l.length = 0)

namespace Trace

variable {file : Option String} {p : Position} {t inside : Trace} {kind : NodeKind}

/-- A node around what a trace leaves behind. It ends at what the trace reaches, and what trails a
node that is no document has something significant in it after all. -/
theorem Located.nests (h : inside.Located file p)
    (hs : inside.forest.symbols ∈ kind.children.matches') (hd : inside.forest.IsDerived)
    (hidle : kind = .document → inside.forest.EndsIdle) :
    Node.Nests ⟨kind, some (inside.extent file p), inside.forest⟩ (inside.extent file p) := by
  have hn : .node .document ∉ inside.forest.symbols := fun hm => by
    cases Rule.of_consistsOf kind.children_ne_document hs _ hm
  obtain ⟨hh, ho⟩ := h.holds hd hn
  refine ⟨rfl, ho, fun c hc => ?_⟩
  change c ∈ inside.forest.nodes at hc
  obtain ⟨l, hl⟩ := hh c hc
  refine ⟨l, hl.location, hl.offset, ?_⟩
  have hm := Forest.mem_symbols_of_mem_nodes hc
  rcases hl.reached with hr | ⟨hempty, ht⟩
  · left
    have := hr p.byte
    show l.stop ≤ p.byte + (inside.reached p.byte p.byte - p.byte)
    omega
  cases hk : kind.isSubstantial with
  | true =>
    -- What a construct ends with is substantial, and the child would be the end.
    obtain ⟨a, ha, hsub⟩ := ht.last
    rw [Rule.of_endsWith (NodeKind.children_isSubstantial hk).2 hs a ha] at hsub
    cases hsub
  | false =>
    by_cases hdoc : kind = .document
    · subst hdoc
      have hstatements : Rule.statements.consistsOf
          (fun a => a.isSubstantial || a == .node .invalid) = true := rfl
      have hc' := Rule.of_consistsOf hstatements hs _ hm
      rw [Symbol.isSubstantial, ht.kind, Bool.false_or, beq_iff_eq] at hc'
      exact .inr ⟨rfl, ht.idle (hidle rfl), Symbol.node.inj hc', hempty⟩
    · cases Rule.of_consistsOf (NodeKind.children_data hk hdoc) hs _ hm

/-- All nodes that a trace leaves behind, at any depth. -/
theorem Located.nests_findAll (h : t.Located file p) (hd : t.forest.IsDerived)
    (hn : .node .document ∉ t.forest.symbols) (wanted : NodeKind) :
    ∀ n ∈ t.forest.findAll wanted, ∃ m, n.Nests m := by
  induction h with
  | nil p => exact nofun
  | @note p n next _ _ ih =>
    cases n with
    | data tag text => exact ih hd fun hm => hn (List.mem_append_right _ hm)
    | _ => exact ih hd hn
  | dropped _ _ _ _ ih => exact ih hd hn
  | @committed p kind inside next hl _ ihi ih =>
    rw [forest, if_pos rfl, location?_append, forest_append, forest_location,
      Forest.append_nil] at hd hn ⊢
    obtain ⟨hs, hi, hd⟩ := hd
    rw [Forest.symbols, List.mem_cons, not_or] at hn
    have hin : .node .document ∉ inside.forest.symbols := fun hm => by
      cases Rule.of_consistsOf kind.children_ne_document hs _ hm
    intro n hmem
    rw [Forest.findAll, List.mem_append, List.mem_append] at hmem
    rcases hmem with (hmem | hmem) | hmem
    · split at hmem
      · rw [List.mem_singleton.1 hmem]
        exact ⟨_, hl.nests hs hi fun hk => absurd (hk ▸ rfl) hn.1⟩
      · cases hmem
    · exact ihi hi hin n hmem
    · exact ih hd hn.2 n hmem

end Trace

namespace Attempt

/-! ## What is skipped at the end -/

theorem skipped_cons_pos (depth : Nat) (t : Token) (ts : List Token) :
    0 < Tape.skipped false depth (t :: ts) := by
  unfold Tape.skipped
  split
  · split <;> exact Nat.succ_pos _
  split
  · exact Nat.succ_pos _
  split
  · exact Nat.one_pos
  · exact Nat.succ_pos _

theorem skipped_cons_of_isTrivia (depth : Nat) {t : Token} (ht : t.isTrivia = true)
    (ts : List Token) :
    Tape.skipped false depth (t :: ts) = Tape.skipped false depth ts + 1 := by
  have hne (m : Mark) : t.kind ≠ .mark m := by
    intro hk
    rw [Token.isTrivia, hk] at ht
    cases ht
  conv => lhs; unfold Tape.skipped
  rw [if_neg (hne _), if_neg (hne _), if_neg (by simp [hne])]

/-- What is skipped outside of a block is trivia only if all that follows is. Otherwise skipping
takes at least one other token. -/
theorem skipped_eq_length {ts : List Token} {depth : Nat}
    (h : ∀ t ∈ ts.take (Tape.skipped false depth ts), t.isTrivia = true) :
    Tape.skipped false depth ts = ts.length := by
  induction ts generalizing depth with
  | nil => rfl
  | cons t ts ih =>
    obtain ⟨n, hn⟩ := Nat.exists_eq_add_one_of_ne_zero
      (Nat.ne_of_gt (skipped_cons_pos depth t ts))
    have ht : t.isTrivia = true := h t (by rw [hn]; exact List.mem_cons_self)
    rw [skipped_cons_of_isTrivia depth ht] at h ⊢
    rw [ih fun u hu => h u (List.mem_cons_of_mem _ hu)]
    rfl

/-- Tokens that leave no symbols are trivia. -/
theorem isTrivia_of_takeMany {tape : Tape} {n : Nat}
    (h : (tape.takeMany .invalid n).1.forest.symbols = []) :
    ∀ t ∈ tape.ahead.take n, t.isTrivia = true := by
  induction n generalizing tape with
  | zero => exact nofun
  | succ n ih =>
    cases ha : tape.ahead with
    | nil => exact nofun
    | cons t ts =>
      rw [Tape.takeMany_succ, Trace.forest_append, Forest.symbols_append,
        Tape.take_of_cons .invalid ha] at h
      obtain ⟨ht, hts⟩ := List.append_eq_nil_iff.1 h
      intro u hu
      rcases List.mem_cons.1 hu with rfl | hu
      · cases hk : u.kind with
        | blank | lineComment | blockComment => rw [Token.isTrivia, hk]; rfl
        | _ => rw [hk] at ht; cases ht
      · exact ih hts u hu

/-- Behind what was skipped without anything significant nothing is left. -/
theorem ahead_of_recover_idle {file : Option String} {f : Failure} {tape : Tape}
    (h : (tape.takeMany .invalid (Tape.skipped false 0 tape.ahead)).1.forest.symbols = []) :
    (recover file false f tape).tape.ahead = [] := by
  show ((ofTaken (tape.takeMany .invalid _)).framed file .invalid tape.place).tape.ahead = []
  rw [tape_framed, tape_ofTaken, Tape.ahead_takeMany, skipped_eq_length (isTrivia_of_takeMany h)]
  exact List.drop_length

/-- The node of what was skipped, and what follows it. If it is empty, then nothing follows. -/
theorem endsIdle_recover {file : Option String} {f : Failure} {tape : Tape} {g : Forest}
    (hg : g.EndsIdle) (hend : (recover file false f tape).tape.ahead = [] → g.nodes = []) :
    ((recover file false f tape).trace.forest ++ g).EndsIdle := by
  show (Trace.forest (_ ++ Attempt.trace (framed _ _ _ _)) ++ g).EndsIdle
  rw [Trace.forest_append, framed]
  refine ⟨fun h => hend (ahead_of_recover_idle ?_), hg⟩
  rwa [Trace.forest_append, Trace.forest_location, Forest.append_nil] at h

end Attempt

namespace Attempt

/-- A statement that was read has something significant. -/
theorem symbols_ne_nil_of_statement {t : Trace} (h : t.Spelt .statement) :
    ∀ c ∈ t.forest.nodes, c.children.symbols ≠ [] := by
  intro c hc hnil
  have hsub : Rule.statement.consistsOf Symbol.isSubstantial = true := rfl
  have hkind := Rule.of_consistsOf hsub h.symbols _ (Forest.mem_symbols_of_mem_nodes hc)
  have hd := h.derived.of_nodes c hc
  rw [Node.IsDerived, hnil] at hd
  have hne := (NodeKind.children_isSubstantial hkind).1
  rw [Rule.matchEpsilon_of_nil_mem hd] at hne
  cases hne

/-- A statement that was read is a node. -/
theorem nodes_ne_nil_of_statement {t : Trace} (h : t.Spelt .statement) : t.forest.nodes ≠ [] := by
  have hne : t.forest.symbols ≠ [] := by
    intro hnil
    have hempty := Rule.matchEpsilon_of_nil_mem (hnil ▸ h.symbols)
    cases (show Rule.statement.matchEpsilon = false from rfl).symm.trans hempty
  obtain ⟨a, symbols, ha⟩ := List.exists_cons_of_ne_nil hne
  have hmem : a ∈ t.forest.symbols := ha ▸ List.mem_cons_self
  exact Forest.nodes_ne_nil hmem
    (Rule.of_consistsOf (p := Symbol.isNode) (r := .statement) rfl h.symbols a hmem)

theorem nodes_eq_nil_of_spelt {t : Trace} (h : t.Spelt 1) : t.forest.nodes = [] :=
  Forest.nodes_eq_nil fun a ha => by
    have hnil : t.forest.symbols = [] := h.symbols
    rw [hnil] at ha
    cases ha

/-- Only the last node of a list of statements can be without anything significant. The induction
is that of the rounds of a list (`statements_rule`); its motive says besides that behind the last
token there are no nodes, which is what an empty node needs of what follows it. -/
theorem endsIdle_statements {read : Tape → Attempt} (hs : SpellsStatements read)
    (hp : ∀ tape, tape.Lexed → Progress tape (read tape)) (file : Option String) {tape : Tape}
    (h : tape.Lexed) {rounds : Nat} (hr : tape.size ≤ rounds) :
    (statements file false read rounds tape).trace.forest.EndsIdle := by
  have htrivia (tape : Tape) : tape.takeTrivia.1.forest.nodes = [] :=
    nodes_eq_nil_of_spelt (spelt_trivia tape)
  have hend {tape : Tape} (he : tape.ahead = []) : tape.takeTrivia.2.ahead = [] := by
    rw [Tape.ahead_takeTrivia, he]
    rfl
  refine (statements_rule (P := fun tape a =>
    (tape.takeTrivia.2.ahead = [] → a.trace.forest.nodes = []) ∧ a.trace.forest.EndsIdle)
    hs.conserves hp ?_ ?_ ?_ h hr).2
  · intro tape _ _
    refine ⟨fun _ => htrivia tape, .of_nodes ?_⟩
    rw [trace_ofTaken, htrivia]
    exact List.forall_mem_nil _
  · intro tape b _ _ hb r ih
    refine ⟨fun he => by simp [he] at hb, ?_⟩
    rw [trace_behind, trace_behind, Trace.forest_append, Trace.forest_append]
    exact .append (by rw [htrivia]; exact List.forall_mem_nil _)
      (endsIdle_recover ih.2 fun he => ih.1 (hend he))
  · intro tape b h hne _ r ih
    have hl : tape.takeTrivia.2.Lexed := (conserves.takeTrivia tape h).lexed
    refine ⟨fun he => absurd (.inl he) hne, ?_⟩
    rw [trace_behind, trace_behind, Trace.forest_append, Trace.forest_append]
    refine .append (by rw [htrivia]; exact List.forall_mem_nil _) ?_
    -- A statement that was read is not empty. One that failed leaves no node, and may be followed
    -- by an empty one.
    cases hf : (read tape.takeTrivia.2).failure with
    | none =>
      have hr : r = read tape.takeTrivia.2 := by simp only [r, recovered, hf]
      rw [hr]
      refine .append (symbols_ne_nil_of_statement ?_) ih.2
      rcases hs.spells _ hl hf with hspelt | ⟨he, -⟩
      · exact hspelt
      · cases he
    | some f =>
      have hr : r = (recover file false f (read tape.takeTrivia.2).tape).behind
          (read tape.takeTrivia.2).trace := by simp only [r, recovered, hf]
      have hsilent := hs.silent _ hl (by rw [hf]; exact Option.some_ne_none _)
      rw [hr] at ih ⊢
      rw [trace_behind, Trace.forest_append, Forest.append_assoc]
      exact .append (by rw [nodes_eq_nil_of_spelt hsilent]; exact List.forall_mem_nil _)
        (endsIdle_recover ih.2 fun he => ih.1 (hend he))

end Attempt

/-! ## Whole sources -/

/-- **Extents nest.** In the tree of every source, the extents of the children of every node lie
one behind the other, in their order, and inside the extent of the node. Only the last node of a
document can be an exception: what was skipped there may be empty and lie behind the document. -/
theorem ofSource_nests (o : Options) (source : String) :
    ∃ root, (Parsed.ofSource o source).root = some root ∧ (∃ m, root.Nests m) ∧
      ∀ kind, ∀ n ∈ root.findAll kind, ∃ m, n.Nests m := by
  have hspelt := spelt_readStatements o source
  have hlocates := (sited_readStatements o source).locates (Nat.zero_le _)
  have hlocated := hlocates.located
  have hreach := hlocates.reach
  rw [Tape.place_ofText] at hlocated hreach
  rw [Tape.reach_ofText] at hreach
  have hextent : (readStatements o source).tape.extent o.file (openSource source).1 =
      (readStatements o source).trace.extent o.file (openSource source).1 := by
    rw [Tape.extent, Trace.extent, hreach, Trace.reached_sub _ (Nat.zero_le _)]
  have hidle : (readStatements o source).trace.forest.EndsIdle :=
    Attempt.endsIdle_statements (spellsStatements_statement maxNesting o)
      (fun _ ht => progress_statement maxNesting o ht) o.file (Tape.lexed_ofText _ _ _)
      (Nat.le_refl _)
  rw [Parsed.ofSource_eq, hextent]
  refine ⟨_, rfl, ⟨_, hlocated.nests hspelt.symbols hspelt.derived fun _ => hidle⟩, fun kind => ?_⟩
  · refine hlocated.nests_findAll hspelt.derived (fun hm => ?_) kind
    cases Rule.of_consistsOf (NodeKind.children_ne_document .document) hspelt.symbols _ hm

/-- Behind `x` a semicolon is missed at the end of the source, where nothing is left to skip. The
document ends behind `x`. -/
theorem not_nests_trailing :
    ¬ ∀ (o : Options) (source : String) (root : Node),
      (Parsed.ofSource o source).root = some root → ∀ m, root.location = some m →
        ∀ c ∈ root.nodes, ∀ l, c.location = some l → m.offset ≤ l.offset ∧ l.stop ≤ m.stop := by
  intro h
  have hfails : (Parsed.ofSource {} "x ").root.any (fun root => root.location.any fun m =>
      root.nodes.any fun c => c.location.any fun l => decide (m.stop < l.stop)) = true := by cbv
  obtain ⟨root, hr, hroot⟩ := (Option.any_eq_true _ _).1 hfails
  obtain ⟨m, hm, hnodes⟩ := (Option.any_eq_true _ _).1 hroot
  obtain ⟨c, hc, hloc⟩ := List.any_eq_true.1 hnodes
  obtain ⟨l, hl, hlt⟩ := (Option.any_eq_true _ _).1 hloc
  exact Nat.not_le_of_lt (of_decide_eq_true hlt) (h _ _ root hr m hm c hc l hl).2

end Heddle
