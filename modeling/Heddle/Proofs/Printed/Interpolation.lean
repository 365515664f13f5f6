import Heddle.Proofs.Printed.Expressions
import Heddle.Proofs.Token.Detached
import Heddle.Proofs.Token.Kinds

/-!
# Printed texts with placeholders

A quoted text is scanned twice. As a token it is cut at the percent signs, by characters and by
counting braces; then each placeholder is read as a text of its own that goes up to the closing
quote, and plain text goes on where this reading stops. An `Insert` is a placeholder on which the
two agree: at its percent sign the scanner takes just the text of its tree, and the grammar reads
the tree back and leaves the rest.

**A quoted text of plain text and such inserts is read as the pieces it was printed from**
(`Insert.reads_string`): the first piece has the opening quote and the last one the closing quote,
and between two placeholders there is a piece if there is any text.
-/

set_option autoImplicit false

namespace Heddle

open Text Token Lookahead Phrase

variable {o : Options} {n : Nat} {rest : List Char}

/-- What is read of a placeholder without braces. -/
def Phrase.namedPlaceholder : Phrase := seq [take .punctuation, node .valuePath]

/-- What is read of a placeholder with braces. -/
def Phrase.bracedPlaceholder : Phrase :=
  seq [take .punctuation, take .punctuation, node .expression, mark .rightBrace]

/-- What is read of either sort of placeholder. -/
def Phrase.placeholder (isBraced : Bool) : Phrase :=
  if isBraced then bracedPlaceholder else namedPlaceholder

namespace Text

/-- The text is at its end, at the closing quote, or at the next placeholder. In each of these a
placeholder with plain text behind it is followed by nothing that goes on with it. -/
def Resumes (rest : List Char) : Prop := ∀ c ∈ rest.head?, c = '%' ∨ c = '\x22'

theorem resumes_nil : Resumes [] := fun c hc => absurd hc (Option.not_mem_none c)

theorem resumes_quote (cs : List Char) : Resumes ('\x22' :: cs) := fun _ hc =>
  .inr (Option.some.inj hc).symm

end Text

namespace Printed

/-- A placeholder, and the plain text behind it. -/
structure Insert where
  isBraced : Bool
  /-- What is read of the placeholder, the percent sign first. -/
  tree : Forest
  chunk : List Char

namespace Insert

def chars (i : Insert) : List Char := i.tree.chars ++ i.chunk

/-- The text of inserts one behind the other. -/
def inside (is : List Insert) : List Char := is.flatMap chars

@[simp] theorem inside_nil : inside [] = [] := rfl

@[simp] theorem inside_cons (i : Insert) (is : List Insert) :
    inside (i :: is) = i.tree.chars ++ (i.chunk ++ inside is) := by
  simp [inside, chars]

/-- A piece of plain text, if there is any. -/
def plain (cs : List Char) : Forest :=
  if cs.isEmpty then .nil else .ofData .stringChunk (String.ofList cs)

@[simp] theorem chars_plain (cs : List Char) : (plain cs).chars = cs := by
  cases cs <;> simp [plain]

/-- The children of a quoted text from the plain text `lead` on. The last piece has the closing
quote; a piece in front of a placeholder is left out if it is empty. -/
def children (lead : List Char) : List Insert → Forest
  | [] => .ofData .stringChunk (String.ofList (lead ++ ['\x22']))
  | i :: is => plain lead ++ (i.tree ++ children i.chunk is)

@[simp] theorem chars_children (lead : List Char) (is : List Insert) :
    (children lead is).chars = lead ++ (inside is ++ ['\x22']) := by
  induction is generalizing lead with
  | nil => simp [children]
  | cons i is ih => simp [children, ih]

/-- Nodes nest as deep as in one of the inserts. -/
theorem height_children {is : List Insert} {m : Nat} (h : ∀ i ∈ is, i.tree.height ≤ m)
    (lead : List Char) : (children lead is).height ≤ m := by
  induction is generalizing lead with
  | nil => exact Nat.zero_le m
  | cons i is ih =>
    have hplain : (plain lead).height = 0 := by cases lead <;> rfl
    rw [children, Forest.height_append_le, Forest.height_append_le, hplain]
    exact ⟨Nat.zero_le m, h i List.mem_cons_self,
      ih (fun j hj => h j (List.mem_cons_of_mem _ hj)) _⟩

/-- What the scanner notes of the inserts, which begin at `p`: where each begins, where it ends,
and of which sort it is. -/
def placeholders (p : Position) : List Insert → List Placeholder
  | [] => []
  | i :: is => ⟨p, (p.past i.tree.chars).byte, i.isBraced⟩ ::
    placeholders ((p.past i.tree.chars).past i.chunk) is

/-- The scanner and the grammar agree on the placeholder, whatever it is followed by, and the text
behind it is plain. The percent sign is apart, since the scanner has taken it when it looks at the
rest. -/
structure Stands (o : Options) (i : Insert) : Prop where
  plain : ∀ c ∈ i.chunk, isPlainText '\x22' c = true
  sign : ∃ cs, i.tree.chars = '%' :: cs ∧ ∀ rest, Resumes rest →
    Lexeme.percent '\x22' (cs ++ (i.chunk ++ rest)) =
      ⟨i.tree.chars, i.chunk ++ rest, some i.isBraced⟩
  reads : ∀ rest, Resumes rest →
    (placeholder i.isBraced).ReadsBack o i.tree (i.chunk ++ rest)

variable {is : List Insert} (h : ∀ i ∈ is, i.Stands o)

include h in
/-- Inserts begin with a percent sign. -/
theorem resumes (hr : Resumes rest) : Resumes (inside is ++ rest) := by
  cases is with
  | nil => exact hr
  | cons i is =>
    obtain ⟨cs, hi, -⟩ := (h i List.mem_cons_self).sign
    intro c hc
    rw [inside_cons, hi] at hc
    exact .inl (Option.some.inj hc).symm

/-! ## The token -/

/-- Plain text in front changes nothing but places. -/
theorem quotedBody?_plain_append {cs : List Char}
    (hc : ∀ c ∈ cs, isPlainText '\x22' c = true) (p : Position) (rest : List Char) :
    Lexeme.quotedBody? '\x22' p (cs ++ rest) =
      (Lexeme.quotedBody? '\x22' (p.past cs) rest).map fun found =>
        (found.1, cs ++ found.2.1, found.2.2) := by
  induction cs generalizing p with
  | nil => exact Option.map_id'.symm
  | cons c cs ih =>
    have hplain := hc c List.mem_cons_self
    simp only [isPlainText, Bool.and_eq_true, bne_iff_ne] at hplain
    obtain ⟨⟨hquote, hslash⟩, hpercent⟩ := hplain
    rw [List.cons_append, Lexeme.quotedBody?]
    · rw [if_neg hquote, ih (fun d hd => hc d (List.mem_cons_of_mem _ hd)), Option.map_map]
      rfl
    all_goals simp_all

include h in
/-- The scanner finds the placeholders and the closing quote. The induction is on the inserts,
each of which is passed in one step by `Stands.sign`. -/
theorem quotedBody?_inside {lead : List Char} (hl : ∀ c ∈ lead, isPlainText '\x22' c = true)
    (p : Position) :
    Lexeme.quotedBody? '\x22' p (lead ++ (inside is ++ '\x22' :: rest)) =
      some (placeholders (p.past lead) is, lead ++ (inside is ++ ['\x22']), rest) := by
  rw [quotedBody?_plain_append hl]
  induction is generalizing lead p with
  | nil => simp [Lexeme.quotedBody?, placeholders]
  | cons i is ih =>
    have hrest := fun j hj => h j (List.mem_cons_of_mem _ hj)
    obtain ⟨hplain, ⟨cs, hi, hsign⟩, -⟩ := h i List.mem_cons_self
    have hpercent := hsign _ (resumes hrest (resumes_quote rest))
    rw [inside_cons, hi, List.cons_append, List.cons_append, Lexeme.quotedBody?,
      List.append_assoc, List.append_assoc, hpercent]
    simp only [quotedBody?_plain_append hplain, ih hrest hplain]
    simp [placeholders, hi]

/-- The text between the quotes, and both quotes. -/
def between (first : List Char) (is : List Insert) : List Char :=
  '\x22' :: (first ++ (inside is ++ ['\x22']))

include h in
/-- The whole is one token, whose placeholders depend on where it stands. -/
theorem readAll_between {first : List Char} (hf : ∀ c ∈ first, isPlainText '\x22' c = true)
    (p : Position) :
    readAll p (between first is ++ rest) =
      ⟨.quoted .double (placeholders (p.past ('\x22' :: first)) is),
        String.ofList (between first is), p⟩ :: readAll (p.past (between first is)) rest := by
  have hbody := @quotedBody?_inside _ rest _ h _ hf (p.after '\x22')
  have hscan : Lexeme.scan false p '\x22' (first ++ (inside is ++ '\x22' :: rest)) =
      ⟨.quoted .double (placeholders (p.past ('\x22' :: first)) is), between first is, rest⟩ := by
    rw [Lexeme.scan, if_neg (by decide), if_neg (by decide), if_neg (by decide), if_pos rfl,
      Lexeme.quoted, show QuoteStyle.double.mark = '\x22' from rfl, hbody]
    rfl
  have hsplit : between first is ++ rest = '\x22' :: (first ++ (inside is ++ '\x22' :: rest)) := by
    simp [between]
  rw [hsplit, readAll_cons, hscan]
  rfl

/-! ## The reading -/

/-- The trace reports nothing but the forest. -/
structure Shows (f : Forest) (trace : Trace) : Prop where
  silent : trace.diagnostics = []
  forest : trace.forest.unplaced = f

theorem Shows.append {f g : Forest} {a b : Trace} (ha : Shows f a) (hb : Shows g b) :
    Shows (f ++ g) (a ++ b) where
  silent := by rw [Trace.diagnostics_append, ha.silent, hb.silent]; rfl
  forest := by rw [Trace.forest_append, Forest.unplaced_append, ha.forest, hb.forest]

theorem shows_pieceIfAny (cs : List Char) :
    Shows (Insert.plain cs) (Attempt.pieceIfAny .stringChunk cs) := by
  cases cs <;> exact ⟨rfl, rfl⟩

theorem shows_cut {t : Token} {xs ys zs : List Char} (ht : t.chars = xs ++ (ys ++ zs))
    {use : List Char → Trace} {f : Forest} (hu : Shows f (use ys)) {start stop : Nat}
    (hs : start = (t.position.past xs).byte) (he : stop = (t.position.past (xs ++ ys)).byte) :
    Shows f (Attempt.cut t start stop use) := by
  rw [← List.append_assoc] at ht
  rw [Attempt.cut, hs, he, Position.byte_past, Position.byte_past, slice?_eq ht]
  exact hu

/-- A placeholder of a token. It is read in the window that ends at the closing quote, and that it
leaves the rest of the window says where plain text goes on. -/
theorem placeholder_eq (file : Option String) {read : Tape → Attempt} {t : Token}
    {xs ys : List Char} {f : Forest} (ht : t.chars = xs ++ (f.chars ++ ys) ++ ['\x22'])
    (hr : ∀ reach, (read (.ofText (t.position.past xs) (f.chars ++ ys) reach)).Yields f
      ((t.position.past xs).past f.chars) ys) (reach stop : Nat) (isBraced : Bool) :
    ∃ trace reach', Shows f trace ∧
      Attempt.placeholder file read t reach ⟨t.position.past xs, stop, isBraced⟩ =
        ⟨trace, (t.position.past (xs ++ f.chars)).byte, reach'⟩ := by
  have hslice : t.slice? (t.position.past xs).byte (t.stop - 1) = some (f.chars ++ ys) := by
    rw [Position.byte_past]
    exact slice?_inner ht
  obtain ⟨⟨hfailure, hsilent⟩, ⟨reach', hl⟩, hforest⟩ := hr reach
  refine ⟨_, reach', ⟨hsilent, hforest⟩, ?_⟩
  rw [Attempt.placeholder, hslice]
  simp only [hfailure, hl, Tape.place_ofText, Position.past_append]
  rfl

include h in
/-- **Each placeholder is read where the scanner found it, and plain text goes on right behind
it.** The induction is on the inserts; `done` is the text of the token in front of the plain text
`lead`, so the places move on with it. -/
theorem shows_interpolated (file : Option String) {t : Token} {done lead : List Char}
    (ht : t.chars = done ++ (lead ++ (inside is ++ ['\x22']))) (hn : (children lead is).height ≤ n)
    (reach : Nat) :
    Shows (children lead is) (Attempt.interpolated file
      (fun isBraced => (placeholder isBraced).read (Production.read n) o) t
      (t.position.past done).byte reach (placeholders (t.position.past (done ++ lead)) is)) := by
  induction is generalizing done lead reach with
  | nil =>
    have hstop : t.stop = (t.position.past t.chars).byte := by
      rw [Position.byte_past, byteSize_chars]
      rfl
    have hchars : t.chars = done ++ ((lead ++ ['\x22']) ++ []) := by simp [ht]
    have hpiece : Shows (children lead []) (Attempt.piece .stringChunk (lead ++ ['\x22'])) :=
      ⟨rfl, rfl⟩
    rw [placeholders, Attempt.interpolated]
    refine shows_cut hchars hpiece rfl ?_
    rw [hstop, hchars, List.append_nil]
  | cons i is ih =>
    have hrest := fun j hj => h j (List.mem_cons_of_mem _ hj)
    obtain ⟨-, htree, hothers⟩ :=
      (Forest.height_append_le.1 hn).imp_right Forest.height_append_le.1
    -- The placeholder is read back in front of its plain text and the inserts behind it.
    have hreads := (h i List.mem_cons_self).reads _ (resumes hrest resumes_nil)
    rw [List.append_nil] at hreads
    have hchars : t.chars =
        (done ++ lead) ++ (i.tree.chars ++ (i.chunk ++ inside is)) ++ ['\x22'] := by
      simp [ht]
    obtain ⟨trace, reach', htrace, hplaceholder⟩ := placeholder_eq file hchars
      (fun reach => hreads n (t.position.past (done ++ lead)) reach htree) reach
      ((t.position.past (done ++ lead)).past i.tree.chars).byte i.isBraced
    have hbehind : t.chars =
        (done ++ lead ++ i.tree.chars) ++ (i.chunk ++ (inside is ++ ['\x22'])) := by
      simp [ht]
    have hnext := ih hrest hbehind hothers reach'
    have hlead :
        t.chars = done ++ (lead ++ (i.tree.chars ++ (i.chunk ++ (inside is ++ ['\x22'])))) := by
      simp [ht]
    rw [placeholders, Attempt.interpolated, if_neg (by simp), hplaceholder, children,
      ← Forest.append_assoc]
    have hplace : t.position.past (done ++ lead ++ i.tree.chars ++ i.chunk) =
        ((t.position.past (done ++ lead)).past i.tree.chars).past i.chunk := by
      simp only [Position.past_append]
    rw [hplace] at hnext
    exact ((shows_cut hlead (shows_pieceIfAny lead) rfl rfl).append htrace).append hnext

/-- A quoted text that begins with a placeholder or with plain text in front of one. -/
theorem yields_quoted {i : Insert} {is : List Insert}
    (h : ∀ j ∈ i :: is, j.Stands { o with spacedCalls := false }) {first : List Char}
    (hf : ∀ c ∈ first, isPlainText '\x22' c = true)
    (hn : (children ('\x22' :: first) (i :: is)).height ≤ n) (p : Position) (reach : Nat) :
    ((quoted namedPlaceholder bracedPlaceholder).read (Production.read n) o
      (.ofText p (between first (i :: is) ++ rest) reach)).Yields
        (children ('\x22' :: first) (i :: is)) (p.past (between first (i :: is))) rest := by
  let t : Token := ⟨.quoted .double (placeholders (p.past ('\x22' :: first)) (i :: is)),
    String.ofList (between first (i :: is)), p⟩
  have hchars : t.chars = [] ++ ('\x22' :: first ++ (inside (i :: is) ++ ['\x22'])) := by
    rw [Token.chars, String.toList_ofList]
    rfl
  have hshows := shows_interpolated h o.file hchars hn t.stop
  have hread : (quoted namedPlaceholder bracedPlaceholder).read (Production.read n) o
      (.ofText p (between first (i :: is) ++ rest) reach) =
      .ofTaken (Attempt.interpolated o.file
        (fun isBraced => (placeholder isBraced).read (Production.read n)
          { o with spacedCalls := false }) t t.position.byte t.stop
          (placeholders (p.past ('\x22' :: first)) (i :: is)),
        .ofText (p.past (between first (i :: is))) rest t.stop) := by
    have hreads : (fun isBraced => (placeholder isBraced).read (Production.read n)
        { o with spacedCalls := false }) = fun isBraced : Bool =>
          if isBraced then
            bracedPlaceholder.read (Production.read n) { o with spacedCalls := false }
          else namedPlaceholder.read (Production.read n) { o with spacedCalls := false } := by
      funext isBraced
      cases isBraced <;> rfl
    rw [hreads, Phrase.read, Attempt.quoted, Tape.ahead_ofText, readAll_between h hf]
    simp only [Tape.ofText, Position.past_append]
    rfl
  rw [hread]
  exact ⟨⟨rfl, hshows.silent⟩, ⟨_, rfl⟩, hshows.forest⟩

/-- **A quoted text is read as the pieces that it was printed from.** What an insert has to be is
said by `Insert.Stands`, about the text of the insert alone, so placeholders that are not printed
but given as texts can be used as well (`Document.Interpolation`). -/
theorem reads_string {is : List Insert} (h : ∀ i ∈ is, i.Stands { o with spacedCalls := false })
    {first : List Char} (hf : ∀ c ∈ first, isPlainText '\x22' c = true) :
    ReadsBack o (.node .string) (.node .string none (children ('\x22' :: first) is) .nil) rest := by
  have hchars : (children ('\x22' :: first) is).chars = between first is := chars_children _ _
  refine .node ?_ ?_
  · rw [hchars]
    exact solid_cons (by decide) (by decide) _
  cases is with
  | nil =>
    have hl :
        Leads (.quoted .double []) (String.ofList ('\x22' :: first ++ ['\x22'])).toList rest := by
      rw [String.toList_ofList]
      exact leads_quoted hf
    exact .quoted hl
  | cons i is =>
    intro n p reach hn
    rw [hchars]
    exact yields_quoted h hf hn p reach

/-- The text as a value. -/
theorem reads_stringValue {is : List Insert}
    (h : ∀ i ∈ is, i.Stands { o with spacedCalls := false }) {first : List Char}
    (hf : ∀ c ∈ first, isPlainText '\x22' c = true) (hr : EndsValue rest) :
    ReadsBack o (.node .expression) (.node .expression none
      (.node .string none (children ('\x22' :: first) is) .nil) .nil) rest := by
  let string : Forest := .node .string none (children ('\x22' :: first) is) .nil
  have hchars : string.chars ++ rest = between first is ++ rest := by
    simp [string, between]
  have htoken {test : Lookahead} {answer : Bool}
      (ht : ∀ ps text p ts, test (⟨.quoted .double ps, text, p⟩ :: ts) = answer) :
      On test (string.chars ++ rest) answer := by
    intro p
    rw [hchars, readAll_between h hf]
    exact ht _ _ _ _
  have hsolid : Solid (string.chars ++ rest) := htoken fun _ _ _ _ => rfl
  have hprimary : ReadsBack o primary string rest := by
    refine .afterTrivia hsolid (.oneOf (q := .node .string) (fun p => ?_) (reads_string h hf))
    rw [hchars, readAll_between h hf]
    rfl
  have hoperand : ReadsBack o operand string rest :=
    .afterTrivia hsolid (.no (htoken fun _ _ _ _ => rfl) hprimary)
  refine .node hsolid ?_
  rw [← Forest.append_nil (.node .string none _ _)]
  exact .andThen hoperand (Step.reads [] hr)

end Insert

/-! ## Dotted names -/

/-- No name with a point in front, no call and no index begins the text, nor does a name in front
of it go on. -/
structure EndsPath (rest : List Char) : Prop extends EndsName rest where
  call : rest.head? ≠ some '('
  index : rest.head? ≠ some '['

theorem EndsPath.append {cs : List Char} (h : EndsPath cs) (hr : Resumes rest) :
    EndsPath (cs ++ rest) := by
  cases cs with
  | nil =>
    have hne {c : Char} (hc : c ≠ '%' ∧ c ≠ '\x22') : rest.head? ≠ some c := fun hh =>
      (hr c hh).elim hc.1 hc.2
    refine ⟨⟨fun c hc => ?_, fun c cs he => ?_⟩, hne (by decide), hne (by decide)⟩
    · rcases hr c hc with rfl | rfl <;> rfl
    · exact absurd (congrArg List.head? he) (hne (by decide))
  | cons c cs =>
    refine ⟨⟨apart_cons (h.word c rfl) _, fun d ds he => ?_⟩, h.call, h.index⟩
    obtain ⟨rfl, hbehind⟩ := List.cons.inj he
    cases cs with
    | nil =>
      have hd : rest.head? = some d := congrArg List.head? hbehind
      rcases hr d hd with rfl | rfl <;> decide
    | cons e es =>
      obtain ⟨rfl, -⟩ := List.cons.inj hbehind
      exact h.point _ es rfl

/-- A text that begins with another character begins with another mark. -/
theorem on_noMark {m : Mark} (h : rest.head? ≠ m.spelling.toList.head?) :
    On (next (isMark m)) rest false := by
  cases rest with
  | nil =>
    intro p
    rw [readAll_nil]
    rfl
  | cons c cs => exact .otherMark (Ne.symm h) cs

/-- What begins a name, if the first token of a text is one. -/
theorem exists_name {p : Position} {cs : List Char} {t : Token} {ts : List Token}
    (h : readAll p cs = t :: ts) (ht : t.isName = true) :
    ∃ c rest, cs = c :: rest ∧ isNameStart c = true := by
  obtain ⟨c, rest, rfl, rfl⟩ := exists_scan h
  refine ⟨c, rest, rfl, ?_⟩
  have hcut : _ ++ _ = c :: rest := Lexeme.cuts_scan false p c rest
  have hkind : (Lexeme.scan false p c rest).kind = .word := beq_iff_eq.1 ht
  have hdescribed := Lexeme.described_scan false p c rest
  rw [Lexeme.Described, hkind] at hdescribed
  obtain ⟨⟨name, hname⟩, -⟩ := hdescribed
  rw [hname] at hcut
  obtain ⟨rfl, -⟩ := List.cons.inj hcut
  exact name.begins

/-- A point that no name follows is no segment. In plain text a point is often followed by a
blank. -/
theorem EndsPath.noSegment (h : EndsPath rest) : On isSegment rest false := by
  intro p
  refine Bool.or_eq_false_iff.2 ⟨?_, on_noMark h.index p⟩
  refine Bool.eq_false_iff.2 fun hpair => ?_
  rcases ha : readAll p rest with _ | ⟨t, _ | ⟨u, ts⟩⟩
  all_goals rw [ha] at hpair
  · cases hpair
  · cases hpair
  · obtain ⟨hdot, hname⟩ := Bool.and_eq_true_iff.1 hpair
    obtain ⟨-, -, tail, htext, hrest⟩ := readAll_eq_cons ha
    obtain ⟨c, cs, rfl, hc⟩ := exists_name hrest.symm hname
    have hpoint : t.chars = ['.'] := text_of_mark (ha ▸ List.mem_cons_self) (beq_iff_eq.1 hdot)
    rw [hpoint] at htext
    rw [h.point c cs htext] at hc
    cases hc

/-- Where calls need parentheses, nothing else calls. In a placeholder they always do. -/
theorem reads_segment (ho : o.spacedCalls = false) (n : Name) (tag : DataTag)
    (ha : Apart Text.isWord rest) (hp : rest.head? ≠ some '(') :
    ReadsBack o (segment tag) (.ofData tag n.text) rest := by
  have hc : (Forest.ofData tag n.text).chars ++ rest = n.chars ++ rest := by simp
  have htake : ReadsBack o (.take tag) (.ofData tag n.text) rest := .takeName n tag ha
  have hspaced {yes : Phrase} :
      ReadsBack o (.spacedCalls yes (.take tag)) (.ofData tag n.text) rest := by
    intro m p reach hm
    rw [Phrase.read, if_neg (Bool.eq_false_iff.1 ho)]
    exact htake m p reach hm
  have hname : ReadsBack o (choose (next isName) (.take tag) (.expected .name))
      (.ofData tag n.text) rest := by
    refine .yes ?_ htake
    rw [hc]
    exact .of_leads (n.leads ha) fun _ _ => rfl
  refine .no (hc ▸ on_noCall n ha (on_noMark hp)) ?_
  -- Whether a blank and an argument follow does not matter.
  intro m p reach hm
  show Attempt.Yields _ _ _ ((Phrase.choose isSpacedCall _ _).read _ _ _)
  rw [Phrase.read]
  split
  · exact hspaced m p reach hm
  · exact hname m p reach hm

/-- Names behind points. -/
def properties : List Name → Forest
  | [] => .nil
  | n :: ns => .data .punctuation "." (.data .propertyName n.text (properties ns))

@[simp] theorem chars_properties (ns : List Name) :
    (properties ns).chars = ns.flatMap fun n => '.' :: n.chars := by
  induction ns with
  | nil => rfl
  | cons n ns ih => simp [properties, ih]

@[simp] theorem height_properties (ns : List Name) : (properties ns).height = 0 := by
  induction ns with
  | nil => rfl
  | cons n ns ih => exact ih

/-- A path of names. -/
def pathOf (name : Name) (others : List Name) : Forest :=
  .node .valuePath none (.data .varName name.text (properties others)) .nil

theorem chars_pathOf (name : Name) (others : List Name) :
    (pathOf name others).chars = name.dotted others := by
  simp [pathOf, Name.dotted]

section Path

variable (h : EndsPath rest) (ho : o.spacedCalls = false)
include h

/-- Where a name in a path ends: in front of another name, or of the end. -/
theorem behind_name (ns : List Name) :
    Apart Text.isWord ((properties ns).chars ++ rest) ∧
      ((properties ns).chars ++ rest).head? ≠ some '(' := by
  cases ns with
  | nil => exact ⟨h.word, h.call⟩
  | cons n ns =>
    have hc : (properties (n :: ns)).chars ++ rest =
        '.' :: (n.chars ++ ((properties ns).chars ++ rest)) := by simp [properties]
    rw [hc]
    exact ⟨apart_cons (by decide) _, by simp⟩

include ho

theorem reads_properties (ns : List Name) :
    ReadsBack o (repeating isSegment segmentPhrase) (properties ns) rest := by
  induction ns with
  | nil => exact .stop ⟨rfl, rfl⟩ h.noSegment
  | cons n ns ih =>
    obtain ⟨hword, hcall⟩ := behind_name h ns
    exact reads_dot n (by simp) hword (reads_segment ho n .propertyName hword hcall) ih

theorem reads_pathOf (name : Name) (others : List Name) :
    ReadsBack o (node .valuePath) (pathOf name others) rest := by
  obtain ⟨hword, hcall⟩ := behind_name h others
  refine .node (ReadsBack.solid_name name .varName hword)
    (.data (.no ?_ ?_) (reads_properties h ho others))
  · simpa using on_noObject name hword
  · exact reads_segment ho name .varName hword hcall

end Path

/-! ## The two sorts of placeholders -/

/-- Word characters belong to a name in front of them. -/
theorem dotted_word {cs : List Char} (hc : ∀ c ∈ cs, Text.isWord c = true) (tail : List Char) :
    Lexeme.dotted (cs ++ tail) = (cs ++ (Lexeme.dotted tail).1, (Lexeme.dotted tail).2) := by
  induction cs with
  | nil => rfl
  | cons c cs ih =>
    have hword : (Text.isWord c || c == '.' && (cs ++ tail).head?.any isNameStart) = true := by
      rw [hc c List.mem_cons_self]
      rfl
    rw [List.cons_append, Lexeme.dotted, if_pos hword,
      ih fun d hd => hc d (List.mem_cons_of_mem _ hd)]
    rfl

/-- The scanner follows all names of a path, and stops where the grammar does. The two have the
same condition on the text behind, `EndsName`. -/
theorem dotted_properties (h : EndsName rest) (ns : List Name) :
    Lexeme.dotted (ns.flatMap (fun n => '.' :: n.chars) ++ rest) =
      (ns.flatMap fun n => '.' :: n.chars, rest) := by
  induction ns with
  | nil =>
    cases rest with
    | nil => rfl
    | cons c cs =>
      have hpoint : (c == '.' && cs.head?.any isNameStart) = false := by
        refine Bool.eq_false_iff.2 fun hc => ?_
        obtain ⟨hc, hn⟩ := Bool.and_eq_true_iff.1 hc
        obtain rfl := beq_iff_eq.1 hc
        obtain ⟨d, hd, hstart⟩ := (Option.any_eq_true _ _).1 hn
        obtain ⟨ds, rfl⟩ := List.head?_eq_some_iff.1 hd
        rw [h.point d ds rfl] at hstart
        cases hstart
      rw [List.flatMap_nil, List.nil_append, Lexeme.dotted, h.word c rfl, hpoint]
      rfl
  | cons n ns ih =>
    have hword : ∀ c ∈ n.chars, Text.isWord c = true :=
      List.forall_mem_cons.2 ⟨isWord_of_isNameStart n.begins, List.all_eq_true.1 n.goesOn⟩
    have hpoint : (Text.isWord '.' || '.' == '.' && (n.chars ++
        (ns.flatMap (fun n => '.' :: n.chars) ++ rest)).head?.any isNameStart) = true := by
      rw [Name.chars, List.cons_append, List.head?_cons, Option.any_some, n.begins]
      decide
    rw [List.flatMap_cons, List.append_assoc, List.cons_append, Lexeme.dotted, if_pos hpoint,
      dotted_word hword, ih]
    rfl

/-- The scanner goes on to the brace that closes the first one if there are no others, and neither
quotes nor backslashes. -/
theorem braced_inner {cs : List Char} (hc : ∀ c ∈ cs, isInner c = true) (rest : List Char) :
    Lexeme.braced '\x22' 0 (cs ++ '\x7d' :: rest) = (cs ++ ['\x7d'], rest) := by
  induction cs with
  | nil => rfl
  | cons c cs ih =>
    have hne {d : Char} (hd : isInner d = false) : c ≠ d := by
      rintro rfl
      rw [hc c List.mem_cons_self] at hd
      cases hd
    rw [List.cons_append, Lexeme.braced_cons (hne rfl), if_neg (hne rfl), if_neg (hne rfl),
      if_neg (hne rfl), ih fun d hd => hc d (List.mem_cons_of_mem _ hd)]
    rfl

namespace Insert

/-- A percent sign and a path of names. -/
def named (name : Name) (others : List Name) (chunk : List Char) : Insert :=
  ⟨false, .data .punctuation "%" (pathOf name others), chunk⟩

/-- A value in braces, with what stands in front of it and what stands behind it. -/
def braced (value after : Forest) (chunk : List Char) : Insert :=
  ⟨true, .data .punctuation "%" (.data .punctuation "\x7b"
    (value ++ (after ++ .ofData .punctuation "\x7d"))), chunk⟩

variable {chunk : List Char} (hc : ∀ c ∈ chunk, isPlainText '\x22' c = true)
include hc

/-- **On a path of names the scanner and the grammar agree.** The scanner takes names behind
points as far as they go, the grammar a path of properties without calls, and both stop where no
name follows. -/
theorem stands_named (he : EndsPath chunk) (ho : o.spacedCalls = false) (name : Name)
    (others : List Name) : (named name others chunk).Stands o where
  plain := hc
  sign := by
    refine ⟨name.dotted others, by simp [named, chars_pathOf], fun rest hr => ?_⟩
    have hne {c : Char} (hc : isNameStart c = false) : name.first ≠ c := by
      rintro rfl
      rw [name.begins] at hc
      cases hc
    have hword : ∀ c ∈ name.chars, Text.isWord c = true :=
      List.forall_mem_cons.2 ⟨isWord_of_isNameStart name.begins, List.all_eq_true.1 name.goesOn⟩
    have hdotted : Lexeme.dotted (name.dotted others ++ (chunk ++ rest)) =
        (name.dotted others, chunk ++ rest) := by
      rw [Name.dotted, List.append_assoc, dotted_word hword,
        dotted_properties (he.append hr).toEndsName]
    have hsplit : name.dotted others ++ (chunk ++ rest) = name.first :: (name.others ++
        (others.flatMap (fun n => '.' :: n.chars) ++ (chunk ++ rest))) := by
      simp [Name.dotted, Name.chars]
    have htree : (named name others chunk).tree.chars = '%' :: name.dotted others := by
      simp [named, chars_pathOf]
    rw [show (named name others chunk).chunk = chunk from rfl, hsplit,
      Lexeme.percent_cons (hne (by decide)) (hne (by decide)), if_pos name.begins, ← hsplit,
      hdotted, htree]
    rfl
  reads rest hr := by
    have hends := he.append hr
    exact .data (.takeMark .percent .punctuation fun _ _ => rfl) (reads_pathOf hends ho name others)

/-- **On a value in braces they agree**, if nothing in it could be taken for its end. The value is
any forest that is read back in front of the trivia behind it and the brace. -/
theorem stands_braced {value after : Forest}
    (hi : ∀ c ∈ value.chars ++ after.chars, isInner c = true)
    (hv : ∀ rest, ReadsBack o (.node .expression) value (after.chars ++ '\x7d' :: rest))
    (ha : ∀ rest, ReadsBack o .trivia after ('\x7d' :: rest)) :
    (braced value after chunk).Stands o where
  plain := hc
  sign := by
    refine ⟨'\x7b' :: (value.chars ++ (after.chars ++ ['\x7d'])), by simp [braced],
      fun rest _ => ?_⟩
    have htree : (braced value after chunk).tree.chars =
        '%' :: '\x7b' :: (value.chars ++ after.chars ++ ['\x7d']) := by
      simp [braced]
    have hsplit : '\x7b' :: (value.chars ++ (after.chars ++ ['\x7d'])) ++ (chunk ++ rest) =
        '\x7b' :: (value.chars ++ after.chars ++ '\x7d' :: (chunk ++ rest)) := by
      simp
    rw [show (braced value after chunk).chunk = chunk from rfl, hsplit, Lexeme.percent,
      braced_inner hi, htree]
    rfl
  reads rest _ := by
    have hbrace : ReadsBack o (choose (next (isMark .rightBrace)) (.take .punctuation)
        (.expected (.mark .rightBrace))) (.ofData .punctuation "\x7d") (chunk ++ rest) :=
      .yes (.mark .rightBrace fun _ _ => rfl) (.takeMark .rightBrace .punctuation fun _ _ => rfl)
    have hend : ReadsBack o (mark .rightBrace) (after ++ .ofData .punctuation "\x7d")
        (chunk ++ rest) := .andThen (by simpa using ha (chunk ++ rest)) hbrace
    have hvalue : ReadsBack o (.node .expression) value
        ((after ++ .ofData .punctuation "\x7d").chars ++ (chunk ++ rest)) := by
      simpa using hv (chunk ++ rest)
    exact .data (.takeMark .percent .punctuation fun _ _ => rfl)
      (.data (.takeMark .leftBrace .punctuation fun _ _ => rfl) (.andThen hvalue hend))

end Insert

end Printed

end Heddle
