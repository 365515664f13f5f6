import Heddle.Proofs.Document.Assignments
import Heddle.Proofs.Document.Values
import Heddle.Proofs.Reading.Levels

/-!
# Pointers to types

A pointer is a sign in front of a type, and a declared type stays what it is behind the sign, one
level further in. What is behind the sign is **the same text at another place, read with one level
less**: the place does not matter to a reading, nor does the level, if the type leaves one free. The
look for a `|` that comes before both passes over the sign.

This needs the sign to be a token of its own. Two signs right behind each other are read as one
operator, and what they stand in front of is no type (`not_pointer_declared`).
-/

set_option autoImplicit false

namespace Heddle

open Text Token Lookahead Attempt

variable {n : Nat} {o : Options} {tape : Tape}

/-! ## Trivia in front of a type -/

/-- No error stands in front. -/
theorem Attempt.Clean.behind {a : Attempt} (h : a.Clean) {lead : Trace}
    (hl : lead.diagnostics = []) : (a.behind lead).Clean :=
  ⟨h.succeeds, by rw [trace_behind, Trace.diagnostics_append, hl, h.silent]; rfl⟩

/-- A node adds no error. -/
theorem Attempt.Clean.framed {a : Attempt} (h : a.Clean) (file : Option String) (kind : NodeKind)
    (start : Position) : (a.framed file kind start).Clean := by
  refine ⟨(failure_framed _ _ _ _).trans h.succeeds, ?_⟩
  simp only [Attempt.framed, h.succeeds]
  simpa using h.silent

theorem Trace.Plain.diagnostics {t : Trace} (h : t.Plain) : t.diagnostics = [] := by
  rw [Trace.diagnostics, h.errors_eq_nil, List.map_nil]

theorem Tape.takeTrivia_takeTrivia (tape : Tape) :
    tape.takeTrivia.2.takeTrivia = (.nil, tape.takeTrivia.2) := by
  apply Attempt.takeTrivia_of_nil
  rw [Tape.ahead_takeTrivia]
  exact List.takeWhile_eq_nil_iff.2 (List.dropWhile_get_zero_not _ _)

/-- Trivia can be taken before. What is behind it is then read where the trivia ends. -/
theorem Phrase.read_behindTrivia (descend : Options → Production → Tape → Attempt) (o : Options)
    (q : Phrase) (tape : Tape) : (trivia.andThen q).read descend o tape =
      ((trivia.andThen q).read descend o tape.takeTrivia.2).behind tape.takeTrivia.1 := by
  have hread (tape : Tape) : (trivia.andThen q).read descend o tape =
      (q.read descend o tape.takeTrivia.2).behind tape.takeTrivia.1 := rfl
  rw [hread, hread, Tape.takeTrivia_takeTrivia]
  rfl

/-- A type is one of several if a `|` is seen behind the trivia, and a single one otherwise. -/
theorem Phrase.read_type (descend : Options → Production → Tape → Attempt) (o : Options)
    (tape : Tape) : type.read descend o tape =
      (if isMultipleType tape.takeTrivia.2.ahead then descend o .multipleType tape.takeTrivia.2
        else singleType.read descend o tape.takeTrivia.2).behind tape.takeTrivia.1 := rfl

/-! ## The node of a type -/

/-- Whether the phrase comes to a single construct or fails. A single type is such a phrase,
whichever type it is. -/
def Phrase.isOneNode : Phrase → Bool
  | node _ | expected _ => true
  | choose _ yes no => yes.isOneNode && no.isOneNode
  | andThen trivia q => q.isOneNode
  | _ => false

/-- The only node of the forest is this one. Its height is said as well, since the levels of the
type count. -/
structure Forest.IsOnly (f : Forest) (m : Node) : Prop where
  nodes : f.nodes = [m]
  height : f.height = m.children.height + 1

theorem Forest.IsOnly.behind {f g : Forest} {m : Node} (h : f.IsOnly m) (hn : g.nodes = [])
    (hh : g.height = 0) : (g ++ f).IsOnly m :=
  ⟨by rw [Forest.nodes_append, hn, h.nodes]; rfl,
    by rw [Forest.height_append, hh, h.height, Nat.zero_max]⟩

/-- A construct that was read is the only node that it leaves. -/
theorem Production.isOnly_read {p : Production}
    (hf : (p.read n o tape).failure = none) :
    ∃ m, (p.read n o tape).trace.forest.IsOnly m ∧ m.kind = p.kind := by
  cases n with
  | zero => cases (failure_enter _ _ _ _).symm.trans hf
  | succ n =>
    obtain ⟨l, hnodes, hheight⟩ := nodes_enter hf
    exact ⟨_, ⟨hnodes, hheight⟩, rfl⟩

/-- So is what a phrase leaves that comes to a single construct. -/
theorem Phrase.isOnly_read {q : Phrase} (hq : q.isOneNode = true)
    (hf : (q.read (Production.read n) o tape).failure = none) :
    ∃ m, (q.read (Production.read n) o tape).trace.forest.IsOnly m := by
  induction q generalizing tape with
  | node p =>
    obtain ⟨m, hm, -⟩ := Production.isOnly_read (p := p) hf
    exact ⟨m, hm⟩
  | expected => cases hf
  | choose test yes no ihy ihn =>
    obtain ⟨hy, hn⟩ := Bool.and_eq_true_iff.1 hq
    rw [Phrase.read] at hf ⊢
    split <;> rename_i ht
    · rw [if_pos ht] at hf
      exact ihy hy hf
    · rw [if_neg ht] at hf
      exact ihn hn hf
  | andThen first q _ ih =>
    cases first with
    | trivia =>
      obtain ⟨m, hm⟩ := @ih tape.takeTrivia.2 hq hf
      obtain ⟨hnodes, hheight⟩ := tape.plain_takeTrivia.nodes_and_height
      refine ⟨m, ?_⟩
      show (tape.takeTrivia.1 ++ _).forest.IsOnly m
      rw [Trace.forest_append]
      exact hm.behind hnodes hheight
    | _ => cases hq
  | _ => cases hq

/-! ## Declarations with a type -/

/-- What a declaration reads behind its type: a value if there is a sign, and the semicolon. -/
def Phrase.afterType : Phrase :=
  (optional .equals .punctuation (node .expression)).andThen (mark .semicolon)

/-- The text is a single declaration without errors, and these nodes are in it. -/
def Declares (o : Options) (source : String) (nodes : List Node) : Prop :=
  ∃ declaration, (Parsed.ofSource o source).sole? = some declaration ∧
    declaration.kind = .declaration ∧ declaration.nodes = nodes

/-- What stands in front of a declared type. -/
theorem comes_typed (n : Nat) (o : Options) (cs : List Char) :
    ∃ f : Forest, f.nodes = [] ∧ Phrase.Comes n o Production.declaration.body
      (.ofText .origin ('v' :: 'a' :: 'r' :: ' ' :: 'x' :: ':' :: cs) 0) f
      (Phrase.type.andThen .afterType) (.ofText ⟨1, 7, 6⟩ cs 6) := by
  have hc : Apart (isLonger .colon) cs := fun _ _ => rfl
  have hcolon : Solid (':' :: cs) := (leads_mark .colon hc).solid rfl
  have hword : Apart Text.isWord (':' :: cs) := apart_cons (by decide) _
  have hsign : On (significant (isMark .colon)) (':' :: cs) true :=
    .spacedMark false .colon hc fun _ => rfl
  exact comes_variable hword (fun _ => .yes (hsign _) <| .assoc <|
    .past ⟨1, 6, 5⟩ (.trivia hcolon) (Nat.zero_le n) (by simp) (by decide) fun _ => .assoc <|
    .takeMark .colon hc _ _ _) rfl

/-- A declaration is one if its type and everything behind the type are read without errors, and
the nodes of both are in it. The right side is about two readings in a row, which can be compared
with those at another place. -/
theorem declares_iff (o : Options) {source : String} {cs : List Char}
    (hsource : source.toList = 'v' :: 'a' :: 'r' :: ' ' :: 'x' :: ':' :: cs) (nodes : List Node) :
    let a := Phrase.type.read (Production.read 255) o (.ofText ⟨1, 7, 6⟩ cs 6)
    let b := Phrase.afterType.read (Production.read 255) o a.tape
    Declares o source nodes ↔ a.Clean ∧ b.Clean ∧ Finishes o b.tape ∧
      a.trace.forest.nodes ++ b.trace.forest.nodes = nodes := by
  intro a b
  obtain ⟨f, hf, hc⟩ := comes_typed 255 o cs
  rw [← hsource] at hc
  obtain ⟨lead, l, hlead, hiff⟩ := sole?_of_comes (p := .declaration)
    ⟨'v', by rw [hsource]; rfl, by decide⟩ (readStatement_declared o hsource) hc
  replace hiff (m : Node) : (Parsed.ofSource o source).sole? = some m ↔
      (a.andThen (Phrase.afterType.read (Production.read 255) o)).Clean ∧
        Finishes o (a.andThen (Phrase.afterType.read (Production.read 255) o)).tape ∧
        m = ⟨.declaration, some l, lead.forest ++
          (a.andThen (Phrase.afterType.read (Production.read 255) o)).trace.forest⟩ := hiff m
  -- In front of the type a declaration has its keyword, its name and a sign: no nodes.
  have hnodes : lead.forest.nodes = [] := by
    have hmap := Node.nodes_unplaced ⟨.declaration, none, lead.forest⟩
    rw [Node.unplaced, hlead] at hmap
    exact List.map_eq_nil_iff.1 (hmap.symm.trans hf)
  have hall :
      (Node.mk .declaration (some l) (lead.forest ++ (b.behind a.trace).trace.forest)).nodes =
        a.trace.forest.nodes ++ b.trace.forest.nodes := by
    show (lead.forest ++ (a.trace ++ b.trace).forest).nodes = _
    rw [Forest.nodes_append, hnodes, Trace.forest_append, Forest.nodes_append]
    rfl
  constructor
  · rintro ⟨declaration, hsole, -, rfl⟩
    obtain ⟨hclean, hfinish, rfl⟩ := (hiff declaration).1 hsole
    obtain ⟨ha, hb, he⟩ := hclean.of_andThen
    rw [he] at hfinish ⊢
    exact ⟨ha, hb, hfinish, hall.symm⟩
  · rintro ⟨ha, hb, hfinish, rfl⟩
    have he : a.andThen (Phrase.afterType.read (Production.read 255) o) = b.behind a.trace :=
      andThen_of_none ha.succeeds _
    rw [he] at hiff
    exact ⟨_, (hiff _).2 ⟨hb.behind ha.silent, hfinish, rfl⟩, rfl, hall⟩

/-! ## The sign -/

/-- The sign is a token of its own in front of anything but another one. -/
theorem apart_ampersand {cs : List Char} (h : cs.head? ≠ some '&') :
    Apart (isLonger .ampersand) (cs ++ [';']) := by
  intro c hc
  refine beq_eq_false_iff_ne.2 fun he => h ?_
  rw [he, List.head?_append] at hc
  cases hhead : cs.head? with
  | none =>
    rw [hhead] at hc
    cases hc
  | some d =>
    rw [hhead] at hc
    exact hc

/-- A sign in front of a type does not change whether a `|` is seen. -/
theorem isMultipleType_ampersand {t : Token} (h : t.kind = .mark .ampersand) (ts : List Token) :
    isMultipleType (t :: ts) = isMultipleType ts := by
  simp [isMultipleType, hasBar, isMark, h]

/-- Behind the blank a pointer is read, and behind its sign a type with one level less. That the
type is not one of several is asked of what is behind the sign, for there it is known. -/
theorem read_pointer (n : Nat) (o : Options) {cs : List Char}
    (hc : Apart (isLonger .ampersand) cs)
    (hm : isMultipleType (readAll ⟨1, 9, 8⟩ cs) = false) :
    Phrase.type.read (Production.read (n + 1)) o (.ofText ⟨1, 7, 6⟩ (' ' :: '&' :: cs) 6) =
      (((Phrase.singleType.read (Production.read n) o (.ofText ⟨1, 9, 8⟩ cs 8)).behind
        (.ofData .operator "&")).framed o.file .pointerType ⟨1, 8, 7⟩).behind
          (Tape.ofText ⟨1, 7, 6⟩ (' ' :: '&' :: cs) 6).takeTrivia.1 := by
  have hl : Leads (.mark .ampersand) ['&'] cs := leads_mark .ampersand hc
  have hsolid : Solid ('&' :: cs) := hl.solid rfl
  have htrivia : (Tape.ofText ⟨1, 7, 6⟩ (' ' :: '&' :: cs) 6).takeTrivia.2 =
      .ofText ⟨1, 8, 7⟩ ('&' :: cs) 6 := by
    rw [Tape.takeTrivia_space, show Position.after ⟨1, 7, 6⟩ ' ' = ⟨1, 8, 7⟩ by decide,
      Tape.takeTrivia_solid hsolid]
  have hahead : (Tape.ofText ⟨1, 8, 7⟩ ('&' :: cs) 6).ahead =
      ⟨.mark .ampersand, "&", ⟨1, 8, 7⟩⟩ :: readAll ⟨1, 9, 8⟩ cs := hl ⟨1, 8, 7⟩
  have hsingle : isMultipleType (Tape.ofText ⟨1, 8, 7⟩ ('&' :: cs) 6).ahead = false := by
    rw [hahead, isMultipleType_ampersand rfl, hm]
  -- The sign selects the pointer among the single types.
  have hselect : Phrase.singleType.read (Production.read (n + 1)) o
      (.ofText ⟨1, 8, 7⟩ ('&' :: cs) 6) =
        (Phrase.node .pointerType).read (Production.read (n + 1)) o
          (.ofText ⟨1, 8, 7⟩ ('&' :: cs) 6) :=
    Phrase.read_select _ o hl rfl (fun _ _ => rfl) _ _
  have hbody : Production.pointerType.body.read (Production.read n) o
      (.ofText ⟨1, 8, 7⟩ ('&' :: cs) 6) =
        (Phrase.singleType.read (Production.read n) o (.ofText ⟨1, 9, 8⟩ cs 8)).behind
          (.ofData .operator "&") := by
    show Attempt.andThen (ofTaken (Tape.take .operator _)) _ = _
    rw [andThen_of_none rfl, Tape.take_of_cons .operator hahead]
    rfl
  rw [Phrase.read_type, htrivia, if_neg (Bool.eq_false_iff.1 hsingle), hselect,
    Phrase.read_node (.inr hsolid), Tape.place_ofText, hbody]
  rfl

/-! ## The same text at two places -/

/-- Moving on along the line, twice, is moving once by as much. -/
theorem Location.shift_shift (l : Location) (columns bytes columns' bytes' : Nat) :
    (l.shift ⟨0, columns, bytes⟩).shift ⟨0, columns', bytes'⟩ =
      l.shift ⟨0, columns + columns', bytes + bytes'⟩ := by
  simp only [shift, Shift.column, Nat.add_zero, Nat.add_assoc, mk.injEq, true_and, and_true]
  split <;> omega

theorem Forest.shift_shift (f : Forest) (columns bytes columns' bytes' : Nat) :
    (f.shift ⟨0, columns, bytes⟩).shift ⟨0, columns', bytes'⟩ =
      f.shift ⟨0, columns + columns', bytes + bytes'⟩ := by
  induction f with
  | nil => rfl
  | data tag text next ih => simp only [shift, ih]
  | node kind location children next ihc ihn =>
    simp only [shift, ihc, ihn, Option.map_map, Function.comp_def, Location.shift_shift]

theorem Node.shift_shift (m : Node) (columns bytes columns' bytes' : Nat) :
    (m.shift ⟨0, columns, bytes⟩).shift ⟨0, columns', bytes'⟩ =
      m.shift ⟨0, columns + columns', bytes + bytes'⟩ := by
  simp only [shift, Forest.shift_shift, Option.map_map, Function.comp_def, Location.shift_shift]

theorem Forest.height_shift (d : Shift) (f : Forest) : (f.shift d).height = f.height := by
  induction f with
  | nil => rfl
  | data tag text next ih => exact ih
  | node kind location children next ihc ihn => simp only [shift, height, ihc, ihn]

theorem Forest.nodes_shift (d : Shift) (f : Forest) :
    (f.shift d).nodes = f.nodes.map (·.shift d) :=
  Node.nodes_shift d ⟨.document, none, f⟩

theorem Attempt.Moved.nodes {d : Shift} {a a' : Attempt} (h : a.Moved d a') :
    a'.trace.forest.nodes = a.trace.forest.nodes.map (·.shift d) := by
  rw [h.trace, Trace.forest_shift, Forest.nodes_shift]

/-- Two attempts on a text that stands at two places have the same nodes, moved by what lies
between the places. Both are compared with the text at a place of its own, since moving goes
forward only. -/
theorem Attempt.Moved.nodes_of_both {base a b : Attempt} {columns bytes columns' bytes' : Nat}
    (ha : base.Moved ⟨0, columns, bytes⟩ a)
    (hb : base.Moved ⟨0, columns + columns', bytes + bytes'⟩ b) :
    b.trace.forest.nodes = a.trace.forest.nodes.map (·.shift ⟨0, columns', bytes'⟩) := by
  rw [hb.nodes, ha.nodes, List.map_map]
  exact List.map_congr_left fun m _ => (m.shift_shift _ _ _ _).symm

/-- What a declaration reads behind its type it reads elsewhere as well. -/
theorem Attempt.Moved.afterType (n : Nat) (o : Options) {d : Shift} {tape tape' : Tape}
    (h : tape.Moved d tape') : (Phrase.afterType.read (Production.read n) o tape).Moved d
      (Phrase.afterType.read (Production.read n) o tape') :=
  .phrase (fun o p _ _ => .read n o p) .afterType
    ⟨(Phrase.local_optional _ _ _).2 trivial, Phrase.local_mark _⟩ o h

/-- A type that leaves a level free is read elsewhere with one level less. The two changes are
made one after the other, first the place and then the level (`Reading.Levels`). -/
theorem singleType_elsewhere (n : Nat) (o : Options) {base tape tape' : Tape} {d d' : Shift}
    (h : base.Moved d tape) (h' : base.Moved d' tape')
    (hf : (Phrase.singleType.read (Production.read (n + 1)) o tape).failure = none)
    (hh : (Phrase.singleType.read (Production.read (n + 1)) o tape).trace.forest.height ≤ n) :
    ∃ a : Attempt, a.Moved d (Phrase.singleType.read (Production.read (n + 1)) o tape) ∧
      a.Moved d' (Phrase.singleType.read (Production.read n) o tape') := by
  have hmoved (m : Nat) {d : Shift} {tape : Tape} (h : base.Moved d tape) :
      (Phrase.singleType.read (Production.read m) o base).Moved d
        (Phrase.singleType.read (Production.read m) o tape) :=
    .phrase (fun o p _ _ => .read m o p) .singleType Phrase.local_singleType o h
  have hbase := hmoved (n + 1) h
  rw [hbase.failure, Option.map_eq_none_iff] at hf
  rw [hbase.trace, Trace.forest_shift, Forest.height_shift] at hh
  have hfew := Phrase.read_few (Production.suffices_read n.le_succ) (q := .singleType) rfl o base
    hf hh
  refine ⟨_, hbase, ?_⟩
  rw [← hfew]
  exact hmoved n h'

/-- The first node that is read of a type, if it is not one of several, is the type, and it is
read as a single one behind the trivia. -/
theorem singleType_of_type {m : Node} {others others' : List Node}
    (hc : (Phrase.type.read (Production.read n) o tape).Clean)
    (hn : (Phrase.type.read (Production.read n) o tape).trace.forest.nodes ++ others' = m :: others)
    (hk : m.kind ≠ .multipleType) :
    let a := Phrase.singleType.read (Production.read n) o tape.takeTrivia.2
    isMultipleType tape.takeTrivia.2.ahead = false ∧
      Phrase.type.read (Production.read n) o tape = a.behind tape.takeTrivia.1 ∧
      a.Clean ∧ a.trace.forest.IsOnly m ∧ others' = others := by
  intro a
  have hlead := tape.plain_takeTrivia.nodes_and_height.1
  rw [Phrase.read_type] at hc hn ⊢
  rw [trace_behind, Trace.forest_append, Forest.nodes_append, hlead, List.nil_append] at hn
  cases hm : isMultipleType tape.takeTrivia.2.ahead with
  | true =>
    rw [if_pos hm] at hc hn
    obtain ⟨m', hm', hkind⟩ := Production.isOnly_read hc.of_behind.succeeds
    rw [hm'.nodes] at hn
    obtain ⟨rfl, -⟩ := List.cons.inj hn
    exact absurd hkind hk
  | false =>
    rw [if_neg (Bool.eq_false_iff.1 hm)] at hc hn
    obtain ⟨m', hm'⟩ := Phrase.isOnly_read (q := .singleType) rfl hc.of_behind.succeeds
    rw [hm'.nodes] at hn
    obtain ⟨rfl, hothers⟩ := List.cons.inj hn
    exact ⟨rfl, rfl, hc.of_behind, hm', hothers⟩

/-- What is read of a pointer whose target is read without errors: one node more, with the target
in it. -/
theorem pointer_of_singleType (n : Nat) (o : Options) {cs : List Char}
    (hl : Apart (isLonger .ampersand) cs)
    (hm : isMultipleType (Tape.ofText ⟨1, 9, 8⟩ cs 8).takeTrivia.2.ahead = false)
    (hc : (Phrase.singleType.read (Production.read n) o
      (Tape.ofText ⟨1, 9, 8⟩ cs 8).takeTrivia.2).Clean) :
    let target := Phrase.singleType.read (Production.read n) o
      (Tape.ofText ⟨1, 9, 8⟩ cs 8).takeTrivia.2
    let a := Phrase.type.read (Production.read (n + 1)) o (.ofText ⟨1, 7, 6⟩ (' ' :: '&' :: cs) 6)
    a.Clean ∧ a.tape = target.tape ∧ ∃ pointer, a.trace.forest.nodes = [pointer] ∧
      pointer.kind = .pointerType ∧ pointer.nodes = target.trace.forest.nodes := by
  intro target a
  rw [Tape.ahead_takeTrivia] at hm
  have hsingle : isMultipleType (readAll ⟨1, 9, 8⟩ cs) = false := by
    rw [← hm]
    exact (Phrase.hasBar_dropWhile 0 _).symm
  have htarget : Phrase.singleType.read (Production.read n) o (.ofText ⟨1, 9, 8⟩ cs 8) =
      target.behind (Tape.ofText ⟨1, 9, 8⟩ cs 8).takeTrivia.1 := Phrase.read_behindTrivia _ _ _ _
  -- The target is read behind a blank and the sign, which leave trivia and one piece of data in
  -- the pointer and no node.
  let lead := (Tape.ofText ⟨1, 9, 8⟩ cs 8).takeTrivia.1
  let inside := (target.behind lead).behind (.ofData .operator "&")
  have ha : a = (inside.framed o.file .pointerType ⟨1, 8, 7⟩).behind
      (Tape.ofText ⟨1, 7, 6⟩ (' ' :: '&' :: cs) 6).takeTrivia.1 := by
    have hpointer := read_pointer n o hl hsingle
    rwa [htarget] at hpointer
  have hinside : inside.Clean := (hc.behind (Tape.plain_takeTrivia _).diagnostics).behind rfl
  have hnodes : inside.trace.forest.nodes = target.trace.forest.nodes := by
    show (Trace.ofData .operator "&" ++ (lead ++ target.trace)).forest.nodes = _
    rw [Trace.forest_append, Trace.forest_append, Forest.nodes_append, Forest.nodes_append,
      (Tape.plain_takeTrivia _).nodes_and_height.1]
    rfl
  rw [ha]
  refine ⟨(hinside.framed _ _ _).behind (Tape.plain_takeTrivia _).diagnostics, ?_, ?_⟩
  · rw [tape_behind, tape_framed]
    rfl
  · let l := inside.tape.extent o.file ⟨1, 8, 7⟩
    refine ⟨⟨.pointerType, some l, inside.trace.forest⟩, ?_, rfl, hnodes⟩
    rw [trace_behind, Trace.forest_append, Forest.nodes_append,
      (Tape.plain_takeTrivia _).nodes_and_height.1, forest_framed hinside.succeeds]
    rfl

/-- **A pointer to a type that can be declared can be declared.** If the sign is a token of its
own and the type, which is not one of several, leaves a level free, the declaration has the
pointer in the place of the type and the same type in the pointer, one character on.

From the declaration without the sign the type is taken out, read elsewhere with one level less,
and put behind the sign; what follows the type is read elsewhere, too. -/
theorem Declares.pointer {o : Options} {t : String} {type : Node} {others : List Node}
    (h : Declares o ("var x: " ++ t ++ ";") (type :: others)) (hk : type.kind ≠ .multipleType)
    (hh : type.children.height + 2 < maxNesting) (ht : t.toList.head? ≠ some '&') :
    ∃ pointer, Declares o ("var x: &" ++ t ++ ";")
        (pointer :: others.map (·.shift ⟨0, 1, 1⟩)) ∧
      pointer.kind = .pointerType ∧ pointer.nodes = [type.shift ⟨0, 1, 1⟩] := by
  -- The text that stands at two places, and the same text at a place of its own.
  let cs := t.toList ++ [';']
  let base := (Tape.ofText .origin cs 0).takeTrivia.2
  have hsource : ("var x: " ++ t ++ ";").toList =
      'v' :: 'a' :: 'r' :: ' ' :: 'x' :: ':' :: ' ' :: cs := by simp [cs]
  have hsource' : ("var x: &" ++ t ++ ";").toList =
      'v' :: 'a' :: 'r' :: ' ' :: 'x' :: ':' :: ' ' :: '&' :: cs := by simp [cs]
  have hbase : base.Moved ⟨0, 7, 7⟩ (Tape.ofText ⟨1, 7, 6⟩ (' ' :: cs) 6).takeTrivia.2 := by
    rw [Tape.takeTrivia_space]
    exact (Attempt.Moved.takeTrivia (.ofText (Nat.le_refl 1) cs (.inr ⟨rfl, by decide⟩))).tape
  have hbase' : base.Moved ⟨0, 8, 8⟩ (Tape.ofText ⟨1, 9, 8⟩ cs 8).takeTrivia.2 :=
    (Attempt.Moved.takeTrivia (.ofText (Nat.le_refl 1) cs (.inr ⟨rfl, by decide⟩))).tape
  obtain ⟨hread, hrest, hfinish, hnodes⟩ := (declares_iff o hsource _).1 h
  obtain ⟨hm, htype, hsingle, honly, rfl⟩ := singleType_of_type hread hnodes hk
  have hheight : type.children.height + 1 ≤ 254 := by
    rw [maxNesting] at hh
    omega
  obtain ⟨a, ha, ha'⟩ := singleType_elsewhere 254 o hbase hbase' hsingle.succeeds
    (honly.height ▸ hheight)
  have hplaces := local_isMultipleType.ignoresPlaces
  have hm' := (hbase'.look hplaces).trans ((hbase.look hplaces).symm.trans hm)
  have htarget := ha'.clean_iff.2 (ha.clean_iff.1 hsingle)
  obtain ⟨hpointer, htape, pointer, hpnodes, hkind, hinner⟩ :=
    pointer_of_singleType 254 o (apart_ampersand ht) hm' htarget
  -- What stands behind the type, at both places.
  rw [htype, tape_behind] at hrest hfinish ⊢
  have hb := Attempt.Moved.afterType 255 o ha.tape
  have hb' := Attempt.Moved.afterType 255 o ha'.tape
  refine ⟨pointer, (declares_iff o hsource' _).2 ⟨hpointer, ?_⟩, hkind, ?_⟩
  · rw [show Attempt.tape _ = _ from htape, hpnodes]
    exact ⟨hb'.clean_iff.2 (hb.clean_iff.1 hrest),
      (Finishes.moved_iff hb'.tape).2 ((Finishes.moved_iff hb.tape).1 hfinish),
      congrArg (pointer :: ·) (hb.nodes_of_both hb')⟩
  · have hnodes := @Attempt.Moved.nodes_of_both a _ _ 7 7 1 1 ha ha'
    rw [hinner, hnodes, honly.nodes]
    rfl

/-- The first node of a declaration that is evaluated. -/
theorem exists_declares {o : Options} {source : String} {P : Node → Bool}
    (h : ((Parsed.ofSource o source).sole?.any fun declaration =>
      declaration.kind == .declaration && declaration.nodes.head?.any P) = true) :
    ∃ type others, Declares o source (type :: others) ∧ P type = true := by
  obtain ⟨declaration, hsole, hd⟩ := (Option.any_eq_true _ _).1 h
  obtain ⟨hkind, hhead⟩ := Bool.and_eq_true_iff.1 hd
  obtain ⟨type, hn, hp⟩ := (Option.any_eq_true _ _).1 hhead
  obtain ⟨others, hn⟩ := List.head?_eq_some_iff.1 hn
  exact ⟨type, others, ⟨declaration, hsole, beq_iff_eq.1 hkind, hn⟩, hp⟩

/-- A map with a pointer in it, and a value behind the type. -/
theorem Declares.pointer_map :
    let t := "[int: &T] = a"
    ∃ type others, Declares {} ("var x: " ++ t ++ ";") (type :: others) ∧
      type.kind ≠ .multipleType ∧ type.children.height + 2 < maxNesting ∧
      t.toList.head? ≠ some '&' ∧
      ∃ pointer, Declares {} ("var x: &" ++ t ++ ";")
          (pointer :: others.map (·.shift ⟨0, 1, 1⟩)) ∧
        pointer.kind = .pointerType ∧ pointer.nodes = [type.shift ⟨0, 1, 1⟩] := by
  intro t
  have hd : ((Parsed.ofSource {} ("var x: " ++ t ++ ";")).sole?.any fun declaration =>
      declaration.kind == .declaration && declaration.nodes.head?.any fun type =>
        type.kind == .mapType && type.children.height == 2) = true := by cbv
  obtain ⟨type, others, h, htype⟩ := exists_declares hd
  simp only [Bool.and_eq_true, beq_iff_eq] at htype
  have hk : type.kind ≠ .multipleType := by
    rw [htype.1]
    decide
  have hh : type.children.height + 2 < maxNesting := by
    rw [htype.2]
    decide
  have ht : t.toList.head? ≠ some '&' := by simp [t]
  exact ⟨type, others, h, hk, hh, ht, Declares.pointer h hk hh ht⟩

/-- The two signs of a pointer to a pointer are one operator. -/
theorem not_pointer_declared :
    ¬ ∀ (o : Options) (t : String) (type : Node) (others : List Node),
      Declares o ("var x: " ++ t ++ ";") (type :: others) → type.kind ≠ .multipleType →
      type.children.height + 2 < maxNesting →
      ∃ pointer, Declares o ("var x: &" ++ t ++ ";")
          (pointer :: others.map (·.shift ⟨0, 1, 1⟩)) ∧
        pointer.kind = .pointerType ∧ pointer.nodes = [type.shift ⟨0, 1, 1⟩] := by
  intro h
  have hd : ((Parsed.ofSource {} ("var x: " ++ "&int" ++ ";")).sole?.any fun declaration =>
      declaration.kind == .declaration && declaration.nodes.head?.any fun type =>
        type.kind == .pointerType && type.children.height == 1) = true := by cbv
  have hnone : (Parsed.ofSource {} ("var x: &" ++ "&int" ++ ";")).sole? = none := by cbv
  obtain ⟨type, others, hdeclares, htype⟩ := exists_declares hd
  simp only [Bool.and_eq_true, beq_iff_eq] at htype
  have hk : type.kind ≠ .multipleType := by
    rw [htype.1]
    decide
  have hh : type.children.height + 2 < maxNesting := by
    rw [htype.2]
    decide
  obtain ⟨-, ⟨declaration, hsole, -⟩, -⟩ := h {} "&int" type others hdeclares hk hh
  rw [hnone] at hsole
  cases hsole

end Heddle
