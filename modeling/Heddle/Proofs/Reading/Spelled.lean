import Heddle.Proofs.Grammar.Spelling
import Heddle.Proofs.Reading.Located
import Heddle.Proofs.Tree.Pruned

/-!
# What a reading leaves behind

`Trace.Spelt` says that what a trace leaves behind matches a rule, and that all trees in it are
derived. Here are the steps of a reading that the form of phrases says nothing about. A list of
statements goes on behind a statement that failed, which leaves nothing behind but the node of what
was skipped. And a quoted text is put together from pieces: there is plain text in front of its
first placeholder, since its quote is, and plain text at its end, but between placeholders there
may be none.
-/

set_option autoImplicit false

namespace Heddle

open Lookahead Text

/-! ## What a trace spells -/

/-- What the trace leaves behind matches the rule, and below it all trees are derived. Dropped
nodes leave nothing, so a trace can be long and spell the empty word. -/
structure Trace.Spelt (r : Rule) (t : Trace) : Prop where
  symbols : t.forest.symbols ∈ r.matches'
  derived : t.forest.IsDerived

namespace Trace.Spelt

variable {r r' : Rule} {t u : Trace}

theorem nil (h : [] ∈ r.matches') : Trace.nil.Spelt r := ⟨h, trivial⟩

theorem weaken (h : t.Spelt r) (hr : r.matches' ≤ r'.matches') : t.Spelt r' :=
  ⟨hr h.symbols, h.derived⟩

theorem append (ht : t.Spelt r) (hu : u.Spelt r') : (t ++ u).Spelt (r * r') := by
  refine ⟨?_, ?_⟩
  · rw [forest_append, Forest.symbols_append]
    exact Rule.mem_seq ht.symbols hu.symbols
  · rw [forest_append, Forest.isDerived_append]
    exact ⟨ht.derived, hu.derived⟩

/-- What leaves nothing behind changes nothing in front of something else. -/
theorem behind (hu : u.Spelt r) (ht : t.Spelt 1) : (t ++ u).Spelt r :=
  (ht.append hu).weaken fun _ h => by simpa using h

theorem before (ht : t.Spelt r) (hu : u.Spelt 1) : (t ++ u).Spelt r :=
  (ht.append hu).weaken fun _ h => by simpa using h

theorem data {tag : DataTag} {text : String} (h : Symbol.ofChild tag text ∈ r.matches') :
    (ofData tag text).Spelt r := by
  refine ⟨?_, trivial⟩
  show Symbol.ofChild tag text ++ [] ∈ r.matches'
  rwa [List.append_nil]

theorem error (scope : ErrorScope) (d : Diagnostic) : (ofNote (.error scope d)).Spelt 1 :=
  ⟨rfl, trivial⟩

theorem fault (start stop : Nat) : (ofNote (.fault start stop)).Spelt 1 := ⟨rfl, trivial⟩

/-- A node that was given up leaves nothing behind. -/
theorem dropped (kind : NodeKind) (inside : Trace) : (ofNode kind inside false).Spelt 1 :=
  ⟨rfl, trivial⟩

theorem node {kind : NodeKind} (h : t.Spelt kind.children) (l : Location) :
    (ofNode kind (t ++ ofNote (.location l)) true).Spelt (.node kind) := by
  have hf : (t ++ ofNote (.location l)).forest = t.forest := by
    rw [forest_append, forest_location, Forest.append_nil]
  refine ⟨rfl, ?_⟩
  show (Forest.node _ _ _ _).IsDerived
  rw [hf]
  exact ⟨h.symbols, h.derived, trivial⟩

/-- One more in front of many. -/
theorem many (ht : t.Spelt r) (hu : u.Spelt (.many r)) : (t ++ u).Spelt (.many r) :=
  (ht.append hu).weaken fun w hw => by
    obtain ⟨x, hx, y, hy, rfl⟩ := hw
    exact Rule.mem_many hx hy

end Trace.Spelt

/-- A mark ahead has the text of its kind. -/
theorem Tape.Lexed.isSpelled {tape : Tape} (h : tape.Lexed) {t : Token} {ts : List Token}
    (ha : tape.ahead = t :: ts) : t.IsSpelled := by
  intro m hk
  have ht : t ∈ Token.readAll tape.place tape.text := by
    rw [← h.ahead, ha]
    exact List.mem_cons_self
  exact String.toList_inj.1 (Token.text_of_mark ht hk)

namespace Attempt

/-! ## Steps -/

/-- A success leaves behind what the rule says, unless it is a type that is none. Of a failure
nothing is said here, since whatever it leaves is dropped with its node. -/
def Spells (r : Rule) (e : Ending) (a : Attempt) : Prop :=
  a.failure = none → a.trace.Spelt r ∨ e = .type ∧ typeGoesOn a.tape.ahead = true

namespace Spells

variable {r r' : Rule} {e : Ending} {a b : Attempt} {tape : Tape}

theorem of_spelt (h : a.trace.Spelt r) : Spells r e a := fun _ => .inl h

theorem of_failure {f : Failure} (h : a.failure = some f) : Spells r e a := fun hn => by
  rw [h] at hn
  cases hn

theorem spelt (h : Spells r .plain a) (hf : a.failure = none) : a.trace.Spelt r := by
  rcases h hf with h | ⟨he, -⟩
  · exact h
  · cases he

theorem andThen {next : Tape → Attempt} (ha : Spells r .plain a)
    (hn : Spells r' e (next a.tape)) : Spells (r * r') e (a.andThen next) := by
  intro hf
  obtain ⟨h₁, h₂, heq⟩ := andThen_succeeds hf
  rw [heq]
  rcases hn h₂ with hn | hn
  · exact .inl ((ha.spelt h₁).append hn)
  · exact .inr hn

/-- Behind something that leaves nothing. -/
theorem behind {lead : Trace} (hl : lead.Spelt 1) (ha : Spells r e a) :
    Spells r e (a.behind lead) := by
  intro hf
  rcases ha hf with ha | ha
  · exact .inl (ha.behind hl)
  · exact .inr ha

theorem weaken (h : Spells r e a) (hr : r.matches' ≤ r'.matches') : Spells r' e a := by
  intro hf
  rcases h hf with h | h
  · exact .inl (h.weaken hr)
  · exact .inr h

end Spells

variable {r : Rule} {tape : Tape}

theorem spelt_take {P : Token → Bool} {tag : DataTag} (h : tape.Lexed)
    (hs : Token.Spells P tag r) (hg : next P tape.ahead = true) :
    (tape.take tag).1.Spelt r := by
  cases ha : tape.ahead with
  | nil => rw [ha] at hg; cases hg
  | cons t ts =>
    rw [Tape.take_of_cons tag ha]
    rw [ha] at hg
    exact .data (hs t (h.isSpelled ha) hg)

/-- Tokens that are taken in one role. -/
theorem spelt_takeMany {tag : DataTag} (hn : [] ∈ r.matches')
    (hr : (r * r).matches' ≤ r.matches')
    (ht : ∀ (kind : TokenKind) text, Symbol.ofChild (kind.role tag) text ∈ r.matches') (n : Nat)
    (tape : Tape) : (tape.takeMany tag n).1.Spelt r := by
  induction n generalizing tape with
  | zero => exact .nil hn
  | succ n ih =>
    rw [Tape.takeMany_succ]
    refine (Trace.Spelt.append ?_ (ih _)).weaken hr
    cases ha : tape.ahead with
    | nil => exact Tape.take_of_nil tag ha ▸ .nil hn
    | cons t ts => exact Tape.take_of_cons tag ha ▸ .data (ht _ _)

theorem spelt_trivia (tape : Tape) : tape.takeTrivia.1.Spelt 1 := by
  refine spelt_takeMany (r := 1) rfl (fun w hw => by simpa using hw) (fun kind text => ?_) _ tape
  cases kind <;> rfl

/-- What is skipped behind an error leaves one node behind. -/
theorem spelt_recover (file : Option String) (inBlock : Bool) (f : Failure) (tape : Tape) :
    (recover file inBlock f tape).trace.Spelt (.node .invalid) := by
  have hs : (tape.takeMany .invalid (Tape.skipped inBlock 0 tape.ahead)).1.Spelt
      NodeKind.invalid.children := by
    refine spelt_takeMany Rule.nil_mem_many Rule.many_mul_many (fun kind text => ?_) _ tape
    cases kind <;> first | exact Rule.nil_mem_many | exact Rule.mem_one rfl
  exact (Trace.Spelt.node hs _).behind (.error _ _)

/-! ## Lists of statements -/

/-- What a reader of statements leaves behind: a statement, or nothing. The last field is what
keeps the children of a block derived where a statement fails. -/
structure SpellsStatements (read : Tape → Attempt) : Prop where
  conserves : ∀ tape, tape.Lexed → Conserves tape (read tape)
  spells : ∀ tape, tape.Lexed → Spells .statement .semicolon (read tape)
  silent : ∀ tape, tape.Lexed → (read tape).failure ≠ none → (read tape).trace.Spelt 1

theorem SpellsStatements.recovered {read : Tape → Attempt} (hr : SpellsStatements read)
    (file : Option String) (inBlock : Bool) {tape : Tape} (h : tape.Lexed) :
    (recovered file inBlock (read tape)).trace.Spelt (.statement + .node .invalid) := by
  unfold Attempt.recovered
  split <;> rename_i hf
  · have hs := hr.silent tape h (by rw [hf]; nofun)
    exact ((spelt_recover file inBlock _ _).behind hs).weaken fun _ => Rule.mem_right
  · rcases hr.spells tape h hf with hs | ⟨he, -⟩
    · exact hs.weaken fun _ => Rule.mem_left
    · cases he

theorem SpellsStatements.statements {read : Tape → Attempt} (hr : SpellsStatements read)
    (file : Option String) (inBlock : Bool) (rounds : Nat) {tape : Tape} (h : tape.Lexed) :
    (statements file inBlock read rounds tape).trace.Spelt .statements := by
  induction rounds generalizing tape with
  | zero => exact (spelt_trivia tape).weaken fun w hw => by cases hw; exact Rule.nil_mem_many
  | succ n ih =>
    have hl : tape.takeTrivia.2.Lexed := (Attempt.conserves.takeTrivia tape h).lexed
    rw [Attempt.statements, andThen_of_none rfl, trace_behind]
    refine Trace.Spelt.behind ?_ (spelt_trivia tape)
    rw [tape_ofTaken]
    split
    · exact .nil Rule.nil_mem_many
    split
    · split
      · exact .nil Rule.nil_mem_many
      · rw [andThen_of_none rfl]
        have hc := Conserves.recover hl file false (tape.takeTrivia.2.failure .strayBrace)
        exact Trace.Spelt.many ((spelt_recover file false _ _).weaken fun _ => Rule.mem_right)
          (ih hc.lexed)
    · rw [andThen_of_none (failure_recovered _ _ _)]
      exact Trace.Spelt.many (hr.recovered file inBlock hl)
        (ih ((hr.conserves _ hl).recovered file inBlock).lexed)

/-! ## Quoted texts -/

/-- What a reader leaves behind of a placeholder, which it reads from the percent sign on: the
whole, or what was read of it and perhaps the rest as invalid data. Both have to match the rule of
placeholders, which is wide enough for it. -/
def SpellsPlaceholders (isBraced : Bool) (read : Tape → Attempt) : Prop :=
  ∀ (p : Position) (cs : List Char) (reach : Nat), (isBraced = true → cs.head? = some '\x7b') →
    ((read (.ofText p ('%' :: cs) reach)).failure = none →
      (read (.ofText p ('%' :: cs) reach)).trace.Spelt .placeholder) ∧
    ((read (.ofText p ('%' :: cs) reach)).failure ≠ none →
      ∃ left, (read (.ofText p ('%' :: cs) reach)).trace.Spelt left ∧
        (left * .opt (.data .invalid)).matches' ≤ Rule.placeholder.matches')

/-- What is left of one placeholder: what it spells if it was read, and otherwise what was read of
it and the rest as invalid data. -/
theorem spelt_placeholder {read : Tape → Attempt} {q : Placeholder}
    (hr : SpellsPlaceholders q.braced read) (file : Option String) {t : Token} {cs : List Char}
    (hs : t.slice? q.position.byte (t.stop - 1) = some ('%' :: cs))
    (hb : q.braced = true → cs.head? = some '\x7b') (reach : Nat) :
    (placeholder file read t reach q).trace.Spelt .placeholder := by
  obtain ⟨hsuccess, hfailure⟩ := hr q.position cs reach hb
  unfold placeholder
  rw [hs]
  simp only
  split
  · exact hsuccess ‹_›
  · rename_i f hf
    obtain ⟨left, hleft, hle⟩ := hfailure (by rw [hf]; nofun)
    have hreport := hleft.before (.error .placeholder (f.diagnostic file))
    split
    · refine (hreport.append (?_ : Trace.Spelt (.opt (.data .invalid)) _)).weaken hle
      unfold cut
      split
      · exact .data (Rule.mem_right rfl)
      · exact (Trace.Spelt.fault _ _).weaken fun _ => Rule.mem_left
    · have hnone := hreport.append (.nil (Rule.nil_mem_opt (r := .data .invalid)))
      rw [Trace.append_nil] at hnone
      exact hnone.weaken hle

end Attempt

namespace Rule

/-- What can follow the plain text in front of a placeholder. -/
def behindChunk : Rule := many (oneOrMore placeholder * data .stringChunk)

/-- What can follow a placeholder. The two rules are the two states of a text: plain text is never
followed by plain text. -/
def behindPlaceholder : Rule := many placeholder * (data .stringChunk * behindChunk)

variable {w w' : List Symbol}

theorem mem_behindPlaceholder (h : w ∈ placeholder.matches')
    (h' : w' ∈ behindPlaceholder.matches') :
    w ++ w' ∈ behindPlaceholder.matches' := by
  obtain ⟨x, hx, y, hy, rfl⟩ := h'
  show w ++ (x ++ y) ∈ _
  rw [← List.append_assoc]
  exact mem_seq (mem_many h hx) hy

theorem mem_behindChunk (h : w ∈ placeholder.matches') (h' : w' ∈ behindPlaceholder.matches') :
    w ++ w' ∈ behindChunk.matches' := by
  obtain ⟨x, hx, y, ⟨c, hc, z, hz, rfl⟩, rfl⟩ := h'
  show w ++ (x ++ (c ++ z)) ∈ _
  rw [← List.append_assoc, ← List.append_assoc]
  exact mem_many (mem_seq (mem_seq h hx) hc) hz

end Rule

namespace Attempt

/-- The pieces of a quoted text follow the rule of a text from behind a placeholder on. From its
beginning on there is plain text in front of the first placeholder, since the quote is. -/
theorem Interpolates.spelt {read : Bool → Tape → Attempt} {file : Option String}
    (hp : ∀ isBraced, SpellsPlaceholders isBraced (read isBraced)) {t : Token} {quote : Char}
    (hhead : t.chars.head? = some quote) (hquote : quote ≠ '%') {xs : List Char} {trace : Trace}
    (h : Interpolates file read t quote xs trace) :
    trace.Spelt .behindPlaceholder ∧ (xs = [] → trace.Spelt NodeKind.string.children) := by
  induction h with
  | @last xs ys =>
    have hchunk : (piece .stringChunk (ys ++ [quote])).Spelt NodeKind.string.children :=
      .data (Rule.mem_seq (w := [_]) rfl Rule.nil_mem_many)
    exact ⟨hchunk.weaken fun _ h => Rule.mem_seq Rule.nil_mem_many h, fun _ => hchunk⟩
  | @next xs lead cs p reach rest _ ht _ hbrace hslice _ ih =>
    have hhere := spelt_placeholder (hp p.braced) file hslice hbrace reach
    cases lead with
    | nil =>
      refine ⟨(hhere.append ih.1).weaken ?_, ?_⟩
      · rintro _ ⟨w, hw, w', hw', rfl⟩
        exact Rule.mem_behindPlaceholder hw hw'
      · rintro rfl
        rw [ht] at hhead
        exact absurd (Option.some.inj hhead).symm hquote
    | cons c lead =>
      have hpiece : (pieceIfAny .stringChunk (c :: lead)).Spelt (.data .stringChunk) := .data rfl
      have hrest : Trace.Spelt .behindChunk _ := (hhere.append ih.1).weaken <| by
        rintro _ ⟨w, hw, w', hw', rfl⟩
        exact Rule.mem_behindChunk hw hw'
      have hall : Trace.Spelt NodeKind.string.children _ := hpiece.append hrest
      exact ⟨hall.weaken fun _ h => Rule.mem_seq Rule.nil_mem_many h, fun _ => hall⟩

theorem spells_quoted {read : Bool → Tape → Attempt} {file : Option String}
    (hc : ∀ isBraced window, window.Lexed → Conserves window (read isBraced window))
    (hp : ∀ isBraced, SpellsPlaceholders isBraced (read isBraced)) {tape : Tape} (h : tape.Lexed) :
    Spells NodeKind.string.children .plain (quoted file read tape) := by
  rcases quoted_cases file hc h with he | ⟨t, ts, trace, ha, he, rfl | ⟨style, ps, hk, hpieces⟩⟩
  · rw [he]
    exact .of_failure rfl
  · rw [he]
    exact .of_spelt (.data (Rule.mem_seq (w := [_]) rfl Rule.nil_mem_many))
  · have hquote : style.mark ≠ '%' := by cases style <;> decide
    have hhead := Token.head_quoted (h.ahead ▸ ha) hk
    rw [he]
    exact .of_spelt ((hpieces.spelt hp hhead hquote).2 rfl)

end Attempt

end Heddle
