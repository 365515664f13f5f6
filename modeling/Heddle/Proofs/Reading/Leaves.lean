import Heddle.Proofs.Reading.Plain
import Heddle.Proofs.Reading.Runs
import Heddle.Proofs.Tree.Pruned

/-!
# What holds of all nodes of one kind

A property of the nodes of one kind is decided where such a node is made, and everywhere else it is
only handed on: no other step makes a node, and the trees of readings behind each other stand side
by side. `Attempt.Leaves` says of a reading that it takes its tokens off the tape, and that the
nodes of the kind that it leaves behind have the property. **It is enough to look at the
construct of that kind** (`Attempt.Leaves.framed`), and what may be assumed there of the tape is
whatever reading on and cutting out placeholders preserve (`Tape.Domain`).
-/

set_option autoImplicit false

namespace Heddle

/-! ## Tapes -/

/-- A property of tapes that holds wherever a reading can get from a tape of which it holds:
further on in the same text, and in the text of a placeholder. For colors it is that the text is a
part of the source. -/
structure Tape.Domain (D : Tape → Prop) : Prop where
  lexed : ∀ {tape}, D tape → tape.Lexed
  conserves : ∀ {tape a}, D tape → Attempt.Conserves tape a → D a.tape
  window : ∀ {tape isBraced window}, D tape → tape.Window isBraced window → D window

theorem Tape.domain_lexed : Domain Lexed where
  lexed h := h
  conserves _ hc := hc.lexed
  window := by
    rintro tape isBraced window - @⟨t, rest, p, cs, ha, hp, hs, reach⟩
    exact lexed_ofText _ _ _

/-! ## Nodes -/

theorem Forest.findAll_append (wanted : NodeKind) (f g : Forest) :
    (f ++ g).findAll wanted = f.findAll wanted ++ g.findAll wanted := by
  induction f with
  | nil => rfl
  | data tag text next ih => exact ih
  | node kind location children next _ ih => simp only [node_append, findAll, ih, List.append_assoc]

/-- What is found is of the kind that was looked for. -/
theorem Forest.kind_of_mem_findAll {wanted : NodeKind} {f : Forest} {n : Node}
    (h : n ∈ f.findAll wanted) : n.kind = wanted := by
  induction f with
  | nil => cases h
  | data _ _ next ih => exact ih h
  | node kind location children next ihc ihn =>
    rw [findAll, List.mem_append, List.mem_append] at h
    rcases h with (h | h) | h
    · split at h <;> rename_i hk
      · rw [List.mem_singleton.1 h]
        exact hk
      · cases h
    · exact ihc h
    · exact ihn h

/-- All nodes of the kind that the trace leaves behind have the property. -/
def Trace.Each (wanted : NodeKind) (P : Node → Prop) (t : Trace) : Prop :=
  ∀ n ∈ t.forest.findAll wanted, P n

namespace Trace

variable {wanted : NodeKind} {P : Node → Prop}

theorem Plain.findAll {t : Trace} (h : t.Plain) (wanted : NodeKind) :
    t.forest.findAll wanted = [] := by
  induction h with
  | nil => rfl
  | @note n _ next _ ih => cases n <;> exact ih

theorem each_of_forest {t : Trace} (h : t.forest = .nil) : t.Each wanted P := by
  rw [Each, h]
  exact nofun

theorem additive_each : Additive (Each wanted P) where
  plain h := by
    rw [Each, h.findAll]
    exact nofun
  append ht hu n hn := by
    rw [forest_append, Forest.findAll_append, List.mem_append] at hn
    exact hn.elim (ht n) (hu n)

/-- One more node. -/
theorem Each.ofNode {kind : NodeKind} {inside : Trace} (h : inside.Each wanted P)
    (hk : kind = wanted → P ⟨kind, inside.location?, inside.forest⟩) :
    (Trace.ofNode kind inside true).Each wanted P := by
  intro n hn
  simp only [Trace.ofNode, forest, if_true, Forest.findAll, List.append_nil, List.mem_append] at hn
  rcases hn with hn | hn
  · split at hn <;> rename_i hkind
    · rw [List.mem_singleton.1 hn]
      exact hk hkind
    · cases hn
  · exact h n hn

end Trace

/-! ## Readings -/

namespace Attempt

/-- From a tape of the domain the reading takes its tokens off the tape, and all nodes of the kind
that it leaves behind have the property. -/
def Leaves (D : Tape → Prop) (wanted : NodeKind) (P : Node → Prop) (tape : Tape) (a : Attempt) :
    Prop :=
  D tape → Conserves tape a ∧ a.trace.Each wanted P

variable {D : Tape → Prop} {wanted : NodeKind} {P : Node → Prop}

namespace Leaves

theorem of_plain (hD : Tape.Domain D) {tape : Tape} {a : Attempt}
    (hc : tape.Lexed → Conserves tape a) (h : a.trace.Plain) : Leaves D wanted P tape a :=
  fun hd => ⟨hc (hD.lexed hd), Trace.additive_each.plain h⟩

theorem behind (hD : Tape.Domain D) {tape : Tape} {a b : Attempt}
    (ha : Leaves D wanted P tape a) (hb : Leaves D wanted P a.tape b) :
    Leaves D wanted P tape (b.behind a.trace) := by
  intro hd
  obtain ⟨hca, hta⟩ := ha hd
  obtain ⟨hcb, htb⟩ := hb (hD.conserves hd hca)
  exact ⟨hca.behind hcb, Trace.additive_each.append hta htb⟩

/-- A node leaves what its inside leaves, and itself. -/
theorem framed {file : Option String} {kind : NodeKind} {tape : Tape} {a : Attempt}
    (ha : Leaves D wanted P tape a)
    (hk : kind = wanted → D tape → a.failure = none →
      P ⟨kind, some (a.tape.extent file tape.place), a.trace.forest⟩) :
    Leaves D wanted P tape (a.framed file kind tape.place) := by
  intro hd
  obtain ⟨hc, ht⟩ := ha hd
  refine ⟨hc.framed file kind tape.place, ?_⟩
  unfold Attempt.framed
  split <;> rename_i hf
  · exact Trace.each_of_forest rfl
  · refine .ofNode (Trace.additive_each.append ht (Trace.each_of_forest rfl)) fun hkind => ?_
    rw [Trace.location?_append, Trace.forest_append, Trace.forest_location, Forest.append_nil]
    exact hk hkind hd hf

end Leaves

theorem leaves_recover (hD : Tape.Domain D) (hi : wanted ≠ .invalid) (file : Option String)
    (inBlock : Bool) (f : Failure) (tape : Tape) :
    Leaves D wanted P tape (recover file inBlock f tape) := by
  intro hd
  obtain ⟨skipped, hskipped, heq⟩ := exists_recover file inBlock f tape
  refine ⟨.recover (hD.lexed hd) file inBlock f, ?_⟩
  rw [heq]
  exact Trace.additive_each.append (Trace.each_of_forest rfl)
    (.ofNode (Trace.additive_each.plain hskipped) fun hk => absurd hk.symm hi)

/-- The steps of a phrase make no nodes, apart from those for what is skipped, which are of a kind
of their own. -/
theorem leaves_steps (hD : Tape.Domain D) (hi : wanted ≠ .invalid) (file : Option String) :
    PhraseInvariant file (Leaves D wanted P) where
  nothing tape := .of_plain hD .nothing .nil
  take tag tape := .of_plain hD (.take tag) (tape.plain_take tag)
  fail tape _ := .of_plain hD (fun hl => .fail hl _) .nil
  behind := .behind hD
  recovered := by
    intro inBlock tape a ha
    unfold Attempt.recovered
    split
    · exact ha.behind hD (leaves_recover hD hi _ _ _ _)
    · exact ha
  hexDigits tape := .of_plain hD .hexDigits (plain_hexDigits tape)
  foreign tape := .of_plain hD .foreign (plain_foreign tape)

/-- A string leaves what its placeholders leave. -/
theorem leaves_quoted (hD : Tape.Domain D) (file : Option String) :
    KeepsQuoted file (Leaves D wanted P) := by
  intro read tape hr hd
  obtain ⟨read', hcongr, hwindowed⟩ := exists_windowed file read tape
  have hread (isBraced : Bool) (window : Tape) :
      (window.Lexed → Conserves window (read' isBraced window)) ∧
        (read' isBraced window).trace.Each wanted P := by
    rcases hwindowed isBraced window with ⟨hw, heq⟩ | heq
    · obtain ⟨hc, ht⟩ := hr isBraced window (hD.window hd hw)
      rw [heq]
      exact ⟨fun _ => hc, ht⟩
    · rw [heq]
      exact ⟨.nothing, Trace.each_of_forest rfl⟩
  rw [hcongr]
  constructor
  · exact .quoted (fun isBraced window => (hread isBraced window).1) (hD.lexed hd)
  · refine Trace.additive_each.quoted (fun isBraced window => ?_) tape
    unfold Reported
    split
    · exact (hread isBraced window).2
    -- The error that is reported behind a placeholder makes no node.
    · exact Trace.additive_each.append (hread isBraced window).2 (Trace.each_of_forest rfl)

/-! ## Constructs -/

/-- A construct as a node, with what its inside leaves. -/
theorem leaves_enter (hD : Tape.Domain D) (hi : wanted ≠ .invalid) {p : Production} {o : Options}
    {inside : Tape → Attempt} (hinside : ∀ tape, Leaves D wanted P tape (inside tape))
    (hp : ∀ tape, p.kind = wanted → D tape → (inside tape).failure = none →
      P ⟨p.kind, some ((inside tape).tape.extent o.file tape.place), (inside tape).trace.forest⟩)
    (tape : Tape) : Leaves D wanted P tape (p.enter o inside tape) := by
  rw [Production.enter_eq]
  split
  · exact (hinside tape).framed (hp tape)
  · rw [andThen_of_none rfl]
    exact ((leaves_steps hD hi o.file).takeTrivia tape).behind hD ((hinside _).framed (hp _))

/-- **What holds of every construct of a kind holds of every node of this kind** that a reading
leaves behind, however deep nodes may nest. `Document.Colors` uses it for colors,
`Document.Combinators` for combinators. -/
theorem leaves_read (hD : Tape.Domain D) (hi : wanted ≠ .invalid) {file : Option String}
    (hp : ∀ (n : Nat) (o : Options) (p : Production) (tape : Tape), o.file = file →
      p.kind = wanted → D tape → (p.body.read (Production.read n) o tape).failure = none →
        P ⟨p.kind, some ((p.body.read (Production.read n) o tape).tape.extent file tape.place),
          (p.body.read (Production.read n) o tape).trace.forest⟩)
    (n : Nat) {o : Options} (ho : o.file = file) (p : Production) (tape : Tape) :
    Leaves D wanted P tape (Production.read n o p tape) := by
  induction n generalizing o p tape with
  | zero =>
    exact leaves_enter hD hi (fun _ => .of_plain hD (fun hl => .fail hl _) .nil)
      (fun _ _ _ hf => nomatch hf) tape
  | succ n ih =>
    refine leaves_enter hD hi (fun tape => ?_) (fun tape hk hd hf => ?_) tape
    · exact (leaves_steps hD hi file).phrase (fun o ho p tape => ih ho p tape) p.body
        (fun _ => leaves_quoted hD file) o ho tape
    · rw [ho]
      exact hp n o p tape ho hk hd hf

end Attempt

end Heddle
