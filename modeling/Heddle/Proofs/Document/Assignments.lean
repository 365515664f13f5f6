import Heddle.Proofs.Printed.Expressions
import Heddle.Proofs.Reading.Derived

/-!
# Declared values and assigned values

What a declaration gives a variable can be assigned to it, with either sign: the look for the end
of a value accepts every text that is read as an expression. Up to the sign the statements are
different tokens; **behind it they are one text at different places**, which is read alike.

The module goes by the text behind the sign. `Phrase.Comes` leads from a statement to that text,
for a declaration and for an assignment; the two ends of a statement do the same in front of a
semicolon (`read_value`); and what is read there at other places is moved by as much
(`Holds.moved`).
-/

set_option autoImplicit false

namespace Heddle

open Text Token Lookahead

variable {n : Nat} {o : Options} {rest : List Char}

/-! ## Coming to a part of a phrase -/

/-- Reading `q` comes to reading `r` at another tape, and reports the forest in front of it. It
says that a part of a phrase has been passed without errors, and leaves open what becomes of the
rest. -/
def Phrase.Comes (n : Nat) (o : Options) (q : Phrase) (tape : Tape) (f : Forest) (r : Phrase)
    (tape' : Tape) : Prop :=
  ∃ lead : Trace, lead.diagnostics = [] ∧ lead.forest.unplaced = f ∧
    q.read (Production.read n) o tape = (r.read (Production.read n) o tape').behind lead

theorem Attempt.andThen_assoc (a : Attempt) (f g : Tape → Attempt) :
    (a.andThen f).andThen g = a.andThen fun tape => (f tape).andThen g := by
  cases ha : a.failure with
  | some e => rw [andThen_of_some ha, andThen_of_some ha, andThen_of_some ha]
  | none =>
    rw [andThen_of_none ha, andThen_of_none ha]
    cases hf : (f a.tape).failure with
    | some e => rw [andThen_of_some (by exact hf), andThen_of_some hf]
    | none =>
      rw [andThen_of_none (by exact hf), andThen_of_none hf]
      simp only [behind, Trace.append_assoc]

namespace Phrase.Comes

variable {q r s t : Phrase} {f g : Forest} {tape tape' : Tape}

/-- Past something printed. The forest of what was passed and the forest in front of the part are
put together. -/
theorem past {p : Position} {cs : List Char} {reach : Nat} (p' : Position)
    (h : ReadsBack o q f rest) (hn : f.height ≤ n) (hc : cs = f.chars ++ rest)
    (hp : p.past f.chars = p')
    (hr : ∀ reach, Comes n o r (.ofText p' rest reach) g s tape) :
    Comes n o (q.andThen r) (.ofText p cs reach) (f ++ g) s tape := by
  subst hc hp
  let a := q.read (Production.read n) o (.ofText p (f.chars ++ rest) reach)
  obtain ⟨hc, ⟨reach', hl⟩, hf⟩ : a.Yields f (p.past f.chars) rest := h n p reach hn
  obtain ⟨lead, hd, hg, he⟩ := hr reach'
  refine ⟨a.trace ++ lead, ?_, ?_, ?_⟩
  · rw [Trace.diagnostics_append, hc.silent, hd]
    rfl
  · rw [Trace.forest_append, Forest.unplaced_append, hf, hg]
  · show a.andThen _ = _
    rw [Attempt.andThen_of_none hc.succeeds, hl, he]
    simp only [Attempt.behind, Trace.append_assoc]

/-- Where the look ahead says yes. -/
theorem yes {test : Lookahead} {no : Phrase} (ht : test tape.ahead = true)
    (h : Comes n o (q.andThen r) tape f s tape') :
    Comes n o ((choose test q no).andThen r) tape f s tape' := by
  obtain ⟨lead, hd, hf, he⟩ := h
  refine ⟨lead, hd, hf, ?_⟩
  have hchoose : (choose test q no).read (Production.read n) o tape =
      q.read (Production.read n) o tape := if_pos ht
  rw [← he, Phrase.read, hchoose]
  rfl

theorem assoc (h : Comes n o (q.andThen (r.andThen s)) tape f t tape') :
    Comes n o ((q.andThen r).andThen s) tape f t tape' := by
  obtain ⟨lead, hd, hf, he⟩ := h
  refine ⟨lead, hd, hf, ?_⟩
  rw [← he]
  exact Attempt.andThen_assoc _ _ _

/-- Past a mark, which has then been reached, whatever was reached before. With this the tape
behind the sign is the same for all statements but for its place. -/
theorem takeMark (m : Mark) (hm : Apart (isLonger m) rest) (r : Phrase) (p : Position)
    (reach : Nat) :
    Comes n o ((take .punctuation).andThen r) (.ofText p (m.spelling.toList ++ rest) reach)
      (.ofData .punctuation m.spelling) r
      (.ofText (p.past m.spelling.toList) rest (p.byte + m.spelling.utf8ByteSize)) := by
  refine ⟨.ofData .punctuation m.spelling, rfl, rfl, ?_⟩
  have hahead : (Tape.ofText p (m.spelling.toList ++ rest) reach).ahead =
      ⟨.mark m, String.ofList m.spelling.toList, p⟩ :: readAll (p.past m.spelling.toList) rest :=
    leads_mark m hm p
  have htape : ({ ahead := readAll (p.past m.spelling.toList) rest
                  stop := p.past (m.spelling.toList ++ rest)
                  reach := p.byte + m.spelling.utf8ByteSize } : Tape) =
      .ofText (p.past m.spelling.toList) rest (p.byte + m.spelling.utf8ByteSize) := by
    rw [Tape.ofText, Position.past_append]
  rw [Phrase.read, Phrase.read, Attempt.andThen_of_none rfl, Tape.take_of_cons .punctuation hahead,
    String.ofList_toList, ← htape]
  rfl

end Phrase.Comes

/-! ## The ends of a value -/

/-- What a declaration reads behind the sign: an expression, and a semicolon that has to be there.
-/
def Phrase.declaredValue : Phrase := (node .expression).andThen (mark .semicolon)

/-- What an assignment reads there: an expression, and an end of the statement, which may also be
the brace that closes the block. -/
def Phrase.assignedValue : Phrase := (node .expression).andThen terminator

/-- In front of a semicolon a value ends, and no block does. So both statements find the same end
there. -/
theorem semicolon_ahead {ts : List Token} (h : significant (isMark .semicolon) ts = true) :
    isValue 0 ts = true ∧ significant (isMark .rightBrace) ts = false := by
  rw [← isValue_dropWhile, ← next_dropWhile]
  rw [← next_dropWhile] at h
  obtain ⟨t, ts, ha, ht⟩ := exists_of_next h
  rw [ha]
  obtain ⟨kind, text, position⟩ := t
  obtain rfl : kind = .mark .semicolon := kind_of_isMark ht
  exact ⟨rfl, rfl⟩

/-- A semicolon that is there ends a statement as it does where one has to be. -/
theorem read_terminator {descend : Options → Production → Tape → Attempt} {tape : Tape}
    (h : significant (isMark .semicolon) tape.ahead = true) :
    Phrase.terminator.read descend o tape = (Phrase.mark .semicolon).read descend o tape := by
  rw [Phrase.terminator, Phrase.read, if_neg (Bool.eq_false_iff.1 (semicolon_ahead h).2)]

/-- What a declaration reads without errors an assignment reads as well. The look for an
assignment goes over the whole value before anything is read, so it has to accept every expression
(`Reading.Values`). -/
theorem read_value {tape : Tape} (h : tape.Lexed)
    (hc : (Phrase.declaredValue.read (Production.read n) o tape).Clean) :
    isValue 0 tape.ahead = true ∧ Phrase.assignedValue.read (Production.read n) o tape =
      Phrase.declaredValue.read (Production.read n) o tape := by
  obtain ⟨hvalue, hmark, -⟩ := Attempt.Clean.of_andThen hc
  have hs : significant (isMark .semicolon)
      ((Phrase.node .expression).read (Production.read n) o tape).tape.ahead = true := by
    cases hs : significant (isMark .semicolon)
        ((Phrase.node .expression).read (Production.read n) o tape).tape.ahead with
    | true => rfl
    | false => exact absurd hmark.succeeds (Attempt.failure_mark .semicolon o hs)
  refine ⟨Attempt.isValue_expression n o h hvalue (semicolon_ahead hs).1, ?_⟩
  show Attempt.andThen _ _ = Attempt.andThen _ _
  rw [Attempt.andThen_of_none hvalue.succeeds, Attempt.andThen_of_none hvalue.succeeds,
    read_terminator hs]

/-! ## Children of moved trees -/

theorem Node.child?_unplaced (m : Node) (kind : NodeKind) :
    m.unplaced.child? kind = (m.child? kind).map (·.unplaced) := by
  rw [child?, nodes_unplaced, List.find?_map]
  rfl

theorem Node.child?_shift (m : Node) (d : Shift) (kind : NodeKind) :
    (m.shift d).child? kind = (m.child? kind).map (·.shift d) := by
  rw [child?, nodes_shift, List.find?_map]
  rfl

/-- Children of other kinds do not matter. The forest in front of a value has none of its kind. -/
theorem Node.child?_append {k kind : NodeKind} (l : Option Location) {f : Forest}
    (h : (Node.mk k l f).child? kind = none) (g : Forest) :
    (Node.mk k l (f ++ g)).child? kind = (Node.mk k l g).child? kind := by
  rw [child?, Node.nodes_append k l l l, List.find?_append, show List.find? _ _ = none from h]
  rfl

/-! ## Up to the sign -/

/-- The variable of the statements. One name is enough, since the claim is about values. -/
def variableName : Name := ⟨'x', [], by decide, List.all_nil⟩

/-- What begins with the keyword is read as a declaration, although `var` is a name as well and an
assignment might begin with it. -/
theorem readStatement_declared (o : Options) {source : String} {cs : List Char}
    (hsource : source.toList = 'v' :: 'a' :: 'r' :: ' ' :: cs) :
    readStatement o (.ofText .origin source.toList 0) =
      (Phrase.node .declaration).read (Production.read maxNesting) o
        (.ofText .origin source.toList 0) := by
  let var : Name := ⟨'v', ['a', 'r'], by decide, by decide⟩
  have hl : Leads .word var.chars (' ' :: cs) := var.leads (apart_cons (by decide) _)
  rw [hsource]
  exact Phrase.read_select _ o hl rfl (fun _ _ => rfl) .origin 0

/-- The keyword and the variable of a declaration. It is used for declarations of other forms too,
hence the phrase that follows is any. -/
theorem comes_variable {n : Nat} {o : Options} {cs : List Char} {r s : Phrase} {g : Forest}
    {tape : Tape} (hc : Apart Text.isWord cs)
    (hr : ∀ reach, Phrase.Comes n o r (.ofText ⟨1, 6, 5⟩ cs reach) g s tape)
    (hg : (Node.mk .declaration none g).nodes = []) :
    ∃ f : Forest, (Node.mk .declaration none f).nodes = [] ∧ Phrase.Comes n o
      ((Phrase.take .keyword).andThen ((Phrase.name .varName .variableName).andThen r))
      (.ofText .origin ('v' :: 'a' :: 'r' :: ' ' :: 'x' :: cs) 0) f s tape := by
  let var : Name := ⟨'v', ['a', 'r'], by decide, by decide⟩
  have hvar : Phrase.ReadsBack o (.take .keyword) (.ofData .keyword var.text)
      (' ' :: 'x' :: cs) := .takeName var .keyword (apart_cons (by decide) _)
  have hname : Phrase.ReadsBack o (.name .varName .variableName)
      (.data .whitespace " " (.ofData .varName variableName.text)) cs :=
    .blank rfl (Phrase.ReadsBack.solid_name variableName .varName hc)
      (.name variableName .varName .variableName hc)
  refine ⟨_, ?_,
    .past ⟨1, 4, 3⟩ hvar (Nat.zero_le n) (by simp [var, Name.chars]) (by decide) fun _ =>
    .past ⟨1, 6, 5⟩ hname (Nat.zero_le n) (by simp [variableName, Name.chars]) (by decide) hr⟩
  exact hg

/-- What stands in front of the value of a declaration. The value begins in column 8, whatever
follows it. -/
theorem comes_declared (n : Nat) (o : Options) {cs : List Char} (hc : Apart (isLonger .equals) cs) :
    ∃ f : Forest, (Node.mk .declaration none f).nodes = [] ∧
      Phrase.Comes n o Production.declaration.body
        (.ofText .origin ('v' :: 'a' :: 'r' :: ' ' :: 'x' :: ' ' :: '=' :: cs) 0) f
        .declaredValue (.ofText ⟨1, 8, 7⟩ cs 7) := by
  have hequals : Solid ('=' :: cs) := (leads_mark .equals hc).solid rfl
  have hblank : Apart Text.isWord (' ' :: '=' :: cs) := apart_cons (by decide) _
  have hcolon : Phrase.ReadsBack o (.optional .colon .punctuation .type) .nil (' ' :: '=' :: cs) :=
    .absent (.spacedMark true .equals hc fun _ => rfl)
  have hsign : On (significant (isMark .equals)) (' ' :: '=' :: cs) true :=
    .spacedMark true .equals hc fun _ => rfl
  have htrivia : Phrase.ReadsBack o .trivia (.data .whitespace " " .nil) ('=' :: cs) :=
    .blank rfl hequals (.trivia hequals)
  refine comes_variable hblank (fun _ =>
    .past ⟨1, 6, 5⟩ hcolon (Nat.zero_le n) rfl rfl fun _ => .yes (hsign _) <| .assoc <|
    .past ⟨1, 7, 6⟩ htrivia (Nat.zero_le n) (by simp) (by decide) fun _ => .assoc <|
    .takeMark .equals hc _ _ _) rfl

/-- What stands in front of an assigned value, with either sign and with or without a blank in
front of the sign. -/
theorem comes_assigned {n : Nat} (hn : 0 < n) (o : Options) {sign : Mark}
    (hs : sign = .colon ∨ sign = .equals) (isSpaced : Bool) {cs : List Char}
    (hc : Apart (isLonger sign) cs) :
    ∃ f : Forest, (Node.mk .assignment none f).child? .expression = none ∧
      Phrase.Comes n o Production.assignment.body
        (.ofText .origin ('x' :: (gap isSpaced ++ (sign.spelling.toList ++ cs))) 0) f
        .assignedValue
        (.ofText (((Position.origin.after 'x').past (gap isSpaced)).past sign.spelling.toList) cs
          (((Position.origin.after 'x').past (gap isSpaced)).byte +
            sign.spelling.utf8ByteSize)) := by
  have hsolid : Solid (sign.spelling.toList ++ cs) := (leads_mark sign hc).solid rfl
  have hpath := Printed.reads_target (o := o) hs isSpaced variableName (by decide) hc
  have hsign := Printed.on_colonOrEquals hs isSpaced hc
  have htrivia : Phrase.ReadsBack o .trivia (Forest.nil.spaced isSpaced)
      (sign.spelling.toList ++ cs) := .spaced isSpaced rfl hsolid (.trivia hsolid)
  have hheight : (Forest.nil.spaced isSpaced).height = 0 := by cases isSpaced <;> rfl
  refine ⟨_, ?_, .past (Position.origin.after 'x') hpath hn (by simp [variableName, Name.chars])
    (by decide) fun _ => .yes (hsign _) <| .assoc <|
    .past ((Position.origin.after 'x').past (gap isSpaced)) htrivia (hheight ▸ Nat.zero_le n)
      (by simp) (by simp) fun _ => .takeMark sign hc _ _ _⟩
  cases isSpaced <;> rfl

/-! ## The value in both statements -/

/-- The text is one statement of the kind with a value. Errors are excluded by `sole?`, so an
unfinished statement holds nothing. -/
def Holds (o : Options) (source : String) (kind : NodeKind) (value : Node) : Prop :=
  ∃ statement, (Parsed.ofSource o source).sole? = some statement ∧ statement.kind = kind ∧
    statement.child? .expression = some value

/-- When a text whose statement comes to its value is a single statement, and what node this is.
-/
theorem sole?_of_comes {p : Production} {f : Forest} {r : Phrase} {source : String} {tape : Tape}
    (hb : ∃ c ∈ source.toList.head?, beginsStatement c = true)
    (hs : readStatement o (.ofText .origin source.toList 0) =
      (Phrase.node p).read (Production.read maxNesting) o (.ofText .origin source.toList 0))
    (hc : Phrase.Comes 255 o p.body (.ofText .origin source.toList 0) f r tape) :
    let a := r.read (Production.read 255) o tape
    ∃ (lead : Trace) (l : Location), lead.forest.unplaced = f ∧ ∀ node,
      (Parsed.ofSource o source).sole? = some node ↔
        a.Clean ∧ Finishes o a.tape ∧ node = ⟨p.kind, some l, lead.forest ++ a.trace.forest⟩ := by
  obtain ⟨lead, hd, hlead, he⟩ := hc
  have hread := hs.trans (Phrase.read_node (.inr (solid_of_begins hb)) 255 o .origin 0)
  rw [he] at hread
  exact ⟨lead, _, hlead, fun node => @sole?_iff o source p.kind lead _ _ node hb hd hread⟩

/-- What a text holds whose statement comes to its value. The right side is about the reading
behind the sign alone, so it can be compared between statements. -/
theorem holds_iff {p : Production} {f : Forest} {r : Phrase} {source : String} {tape : Tape}
    {value : Node} (hb : ∃ c ∈ source.toList.head?, beginsStatement c = true)
    (hf : (Node.mk p.kind none f).child? .expression = none)
    (hs : readStatement o (.ofText .origin source.toList 0) =
      (Phrase.node p).read (Production.read maxNesting) o (.ofText .origin source.toList 0))
    (hc : Phrase.Comes 255 o p.body (.ofText .origin source.toList 0) f r tape) :
    Holds o source p.kind value ↔
      (r.read (Production.read 255) o tape).Clean ∧
        Finishes o (r.read (Production.read 255) o tape).tape ∧
        (Node.mk p.kind none (r.read (Production.read 255) o tape).trace.forest).child?
          .expression = some value := by
  obtain ⟨lead, l, hlead, hiff⟩ := sole?_of_comes hb hs hc
  have hnone (l : Option Location) : (Node.mk p.kind l lead.forest).child? .expression = none := by
    have hmap := Node.child?_unplaced ⟨p.kind, none, lead.forest⟩ .expression
    rw [Node.unplaced, hlead, hf] at hmap
    exact Option.map_eq_none_iff.1 hmap.symm
  constructor
  · rintro ⟨statement, hsole, -, hv⟩
    obtain ⟨ha, hfinish, rfl⟩ := (hiff statement).1 hsole
    rw [Node.child?_append _ (hnone _)] at hv
    exact ⟨ha, hfinish, hv⟩
  · rintro ⟨ha, hfinish, hv⟩
    refine ⟨_, (hiff _).2 ⟨ha, hfinish, rfl⟩, rfl, ?_⟩
    rw [Node.child?_append _ (hnone _)]
    exact hv

/-- A declaration holds its value if everything behind the sign is read without errors, and what
is left of the source is no statement. -/
theorem declared_iff (o : Options) (e : String) (value : Node) :
    let cs := ' ' :: (e.toList ++ [';'])
    let a := Phrase.declaredValue.read (Production.read 255) o
      (.ofText ⟨1, 8, 7⟩ cs 7)
    Holds o ("var x = " ++ e ++ ";") .declaration value ↔
      a.Clean ∧ Finishes o a.tape ∧
        (Node.mk .declaration none a.trace.forest).child? .expression = some value := by
  intro cs a
  have hequals : Apart (isLonger .equals) cs := isLonger_blank .equals _
  have hsource : ("var x = " ++ e ++ ";" : String).toList =
      'v' :: 'a' :: 'r' :: ' ' :: 'x' :: ' ' :: '=' :: cs := by simp [cs]
  obtain ⟨f, hf, hc⟩ := comes_declared 255 o hequals
  rw [← hsource] at hc
  have hnone : (Node.mk .declaration none f).child? .expression = none := by
    rw [Node.child?, hf]
    rfl
  exact holds_iff (p := .declaration) ⟨'v', by rw [hsource]; rfl, by decide⟩ hnone
    (readStatement_declared o hsource) hc

/-- A statement that the look ahead takes for an assignment. The name in front of the sign might
begin a selector or a call as well, and the look decides. -/
theorem readStatement_assigned (o : Options) {sign : Mark} (hs : sign = .colon ∨ sign = .equals)
    (isSpaced : Bool) {source : String} {cs : List Char} (hl : Apart (isLonger sign) cs)
    (hsource : source.toList = 'x' :: (gap isSpaced ++ (sign.spelling.toList ++ cs)))
    (hv : isValue 0 (readAll (((Position.origin.after 'x').past (gap isSpaced)).past
      sign.spelling.toList) cs) = true) :
    readStatement o (.ofText .origin source.toList 0) =
      (Phrase.node .assignment).read (Production.read maxNesting) o
        (.ofText .origin source.toList 0) := by
  have hassignment := Printed.isAssignment_readAll (p := .origin) hs isSpaced variableName hl hv
  have hword : Apart Text.isWord (gap isSpaced ++ (sign.spelling.toList ++ cs)) :=
    (Printed.calm_sign hs isSpaced hl).apart
  rw [hsource]
  refine (Phrase.read_select (q := .plainStatement) _ o (variableName.leads hword) rfl
    (fun _ ts => by cases ts <;> rfl) .origin 0).trans ?_
  rw [Phrase.plainStatement, Phrase.read_oneOf, Tape.ahead_ofText, List.find?_cons]
  simp only [hassignment]
  rfl

/-- So does an assignment, if the look ahead takes it for one. -/
theorem assigned_iff (o : Options) {sign : Mark} (hs : sign = .colon ∨ sign = .equals)
    (isSpaced : Bool) {source : String} {cs : List Char} (hl : Apart (isLonger sign) cs)
    (hsource : source.toList = 'x' :: (gap isSpaced ++ (sign.spelling.toList ++ cs)))
    (value : Node) {tape : Tape}
    (htape : tape = .ofText (((Position.origin.after 'x').past (gap isSpaced)).past
      sign.spelling.toList) cs
      (((Position.origin.after 'x').past (gap isSpaced)).byte + sign.spelling.utf8ByteSize))
    (hv : isValue 0 tape.ahead = true) :
    let a := Phrase.assignedValue.read (Production.read 255) o tape
    Holds o source .assignment value ↔
      a.Clean ∧ Finishes o a.tape ∧
        (Node.mk .assignment none a.trace.forest).child? .expression = some value := by
  intro a
  subst htape
  obtain ⟨f, hf, hc⟩ := comes_assigned (n := 255) (by decide) o hs isSpaced hl
  rw [← hsource] at hc
  exact holds_iff (p := .assignment) ⟨'x', by rw [hsource]; rfl, by decide⟩ hf
    (readStatement_assigned o hs isSpaced hl hsource hv) hc

/-! ## The same value elsewhere -/

theorem Attempt.Moved.clean_iff {d : Shift} {a a' : Attempt} (h : a.Moved d a') :
    a'.Clean ↔ a.Clean := by
  have hf : a'.failure = none ↔ a.failure = none := by rw [h.failure, Option.map_eq_none_iff]
  have hd : a'.trace.diagnostics = [] ↔ a.trace.diagnostics = [] := by
    rw [h.trace, Trace.diagnostics_shift, List.map_eq_nil_iff]
  exact ⟨fun hc => ⟨hf.1 hc.succeeds, hd.1 hc.silent⟩,
    fun hc => ⟨hf.2 hc.succeeds, hd.2 hc.silent⟩⟩

theorem Finishes.moved_iff {o : Options} {d : Shift} {tape tape' : Tape} (h : tape.Moved d tape') :
    Finishes o tape' ↔ Finishes o tape := by
  have hm : (readFurther o tape).Moved d (readFurther o tape') := by
    rw [readFurther, readFurther, h.size]
    exact .statements (fun _ _ hm => .phrase (fun o p _ _ => .read maxNesting o p) .statement
      Phrase.local_statement o hm) o.file false tape.size h
  have hshift : (Node.mk .document none ((readFurther o tape).trace.forest.shift d)).nodes =
      (Node.mk .document none (readFurther o tape).trace.forest).nodes.map (·.shift d) :=
    Node.nodes_shift d (.mk .document none (readFurther o tape).trace.forest)
  have hnodes : (Node.mk .document none (readFurther o tape').trace.forest).nodes = [] ↔
      (Node.mk .document none (readFurther o tape).trace.forest).nodes = [] := by
    rw [hm.trace, Trace.forest_shift, hshift, List.map_eq_nil_iff]
  rw [Finishes, Finishes, hnodes, hm.trace, Trace.diagnostics_shift, List.map_eq_nil_iff]

/-- What is declared is assigned where the text behind the sign is the same. Both readings are of
that text, at places that differ by `d`, and a reading that is moved reports what is moved
(`Reading.Moved`). -/
theorem Holds.moved {o : Options} {e : String} {value : Node}
    (h : Holds o ("var x = " ++ e ++ ";") .declaration value) {sign : Mark}
    (hs : sign = .colon ∨ sign = .equals) (isSpaced : Bool) {source : String}
    (hsource : source.toList =
      'x' :: (gap isSpaced ++ (sign.spelling.toList ++ ' ' :: (e.toList ++ [';']))))
    {tape : Tape} (htape : tape = .ofText (((Position.origin.after 'x').past (gap isSpaced)).past
      sign.spelling.toList) (' ' :: (e.toList ++ [';']))
      (((Position.origin.after 'x').past (gap isSpaced)).byte + sign.spelling.utf8ByteSize))
    {d : Shift} (hm : tape.Moved d (.ofText ⟨1, 8, 7⟩ (' ' :: (e.toList ++ [';'])) 7)) :
    ∃ assigned, Holds o source .assignment assigned ∧ value = assigned.shift d := by
  obtain ⟨hc, hfinish, hvalue⟩ := (declared_iff o e value).1 h
  let a := Phrase.declaredValue.read (Production.read 255) o tape
  have ha : a.Moved d (Phrase.declaredValue.read (Production.read 255) o _) :=
    .phrase (fun o p _ _ => .read 255 o p) .declaredValue ⟨trivial, Phrase.local_mark _⟩ o hm
  obtain ⟨hv, hterminator⟩ := read_value hm.lexed (ha.clean_iff.1 hc)
  rw [ha.trace, Trace.forest_shift] at hvalue
  have hshift := Node.child?_shift (.mk .declaration none a.trace.forest) d .expression
  obtain ⟨assigned, hchild, hassigned⟩ := Option.map_eq_some_iff.1 (hshift.symm.trans hvalue)
  refine ⟨assigned, (assigned_iff o hs isSpaced (isLonger_blank sign _) hsource assigned htape hv).2
    ?_, hassigned.symm⟩
  rw [hterminator]
  exact ⟨ha.clean_iff.1 hc, (Finishes.moved_iff ha.tape).1 hfinish, hchild⟩

/-- **What can be declared can be assigned**: the value of the assignment is the one of the
declaration, at the places that it has there. An assignment with `=` begins its value four columns
earlier, and one with a colon five. -/
theorem Holds.assigned {o : Options} {e : String} {value : Node}
    (h : Holds o ("var x = " ++ e ++ ";") .declaration value) :
    (∃ assigned, Holds o ("x = " ++ e ++ ";") .assignment assigned ∧
      value = assigned.shift ⟨0, 4, 4⟩) ∧
    ∃ assigned, Holds o ("x: " ++ e ++ ";") .assignment assigned ∧
      value = assigned.shift ⟨0, 5, 5⟩ := by
  have hequals := @Tape.Moved.ofText ⟨0, 4, 4⟩ ⟨1, 4, 3⟩ (Nat.le_refl 1)
    (' ' :: (e.toList ++ [';'])) 3 7 (.inl rfl)
  have hcolon := @Tape.Moved.ofText ⟨0, 5, 5⟩ ⟨1, 3, 2⟩ (Nat.le_refl 1)
    (' ' :: (e.toList ++ [';'])) 2 7 (.inl rfl)
  constructor
  · exact h.moved (.inr rfl) true (by simp [gap, Mark.spelling]) rfl hequals
  · exact h.moved (.inl rfl) false (by simp [gap, Mark.spelling]) rfl hcolon

/-- An object, whose block is part of the value. -/
theorem Holds.assigned_object :
    let e := "a + @T { b: 1; }"
    ∃ value, Holds {} ("var x = " ++ e ++ ";") .declaration value ∧
      (∃ assigned, Holds {} ("x = " ++ e ++ ";") .assignment assigned ∧
        value = assigned.shift ⟨0, 4, 4⟩) ∧
      ∃ assigned, Holds {} ("x: " ++ e ++ ";") .assignment assigned ∧
        value = assigned.shift ⟨0, 5, 5⟩ := by
  intro e
  have hd : ((Parsed.ofSource {} ("var x = " ++ e ++ ";")).sole?.any fun declaration =>
      declaration.kind == .declaration && (declaration.child? .expression).isSome) = true := by
    cbv
  obtain ⟨declaration, hsole, h⟩ := (Option.any_eq_true _ _).1 hd
  simp only [Bool.and_eq_true, beq_iff_eq, Option.isSome_iff_exists] at h
  obtain ⟨hkind, value, hvalue⟩ := h
  have hholds : Holds {} ("var x = " ++ e ++ ";") .declaration value :=
    ⟨declaration, hsole, hkind, hvalue⟩
  exact ⟨value, hholds, Holds.assigned hholds⟩

end Heddle
