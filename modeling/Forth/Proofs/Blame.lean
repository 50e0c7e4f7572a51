-- SUMMARY: Where a load that fails points: the lexeme that its fault is about, said by the grammar of the text.
import Forth.Proofs.Calls
import Forth.Proofs.OpenConstructs

/-!
# What a fault points at

The location of a load that fails is that of the lexeme to blame. Which lexeme that
is depends on the fault, and is said of the text as a whole: with the constructs that
are open in front of the lexeme, or at the end of the text. A compilation is followed
from token to token, together with the constructs that the lexemes read so far lead
into. A fault of linking is about a word, and points at the colon of its definition.
-/

namespace Forth

open Construct (nesting anyDefinition innerClosers)

-- ---------------------------------------------------------------------------
-- Faults of a text
-- ---------------------------------------------------------------------------

/-- The lexeme `x` of a text stands in the constructs `cs`, behind the phrase `p`. There is
    no fault in front of it. -/
def StandsIn (xs : List Lexeme) (x : Lexeme) (cs : List Construct) (p : Phrase) : Prop :=
  ∃ front back, outsideComments 0 xs = front ++ x :: back ∧ Leads front cs p

/-- A text ends in the constructs `cs`, behind the phrase `p`. -/
def EndsIn (xs : List Lexeme) (cs : List Construct) (p : Phrase) : Prop :=
  CommentsClosed 0 xs ∧ Leads (outsideComments 0 xs) cs p

/-- The lexeme `colon` of a text opens a definition, and behind it stand the lexemes `back`. -/
def OpensDefinition (xs : List Lexeme) (colon : Lexeme) (back : List Lexeme) : Prop :=
  ∃ front cs p, outsideComments 0 xs = front ++ colon :: back ∧ Leads front cs p ∧
    anyDefinition cs = false ∧ colon.text = ":"

/-- The lexeme of a text that a fault is about. -/
inductive SyntaxFault.Blames (xs : List Lexeme) : SyntaxFault → Lexeme → Prop where
  -- what is never closed: the outermost comment, or the innermost construct at the end
  | unclosedComment {x : Lexeme} : EndsInside xs x → Blames xs .unclosedComment x
  | unfinishedDefinition {x : Lexeme} {outer p : Phrase} {name : String} {cs : List Construct} :
      EndsIn xs (.definition x outer name :: cs) p → Blames xs (.unfinishedDefinition name) x
  | missingThen {x : Lexeme} {outer p : Phrase} {cs : List Construct} :
      EndsIn xs (.branch x outer :: cs) p → Blames xs .missingThen x
  | missingThenAfterElse {x : Lexeme} {outer yes p : Phrase} {cs : List Construct} :
      EndsIn xs (.alternative x outer yes :: cs) p → Blames xs .missingThenAfterElse x
  -- what may not stand where it stands
  | semicolonInConditional {x : Lexeme} {cs : List Construct} {p : Phrase} :
      StandsIn xs x cs p → x.text = ";" → .semicolon ∉ innerClosers cs →
      anyDefinition cs = true → Blames xs .semicolonInConditional x
  | semicolonOutside {x : Lexeme} {cs : List Construct} {p : Phrase} :
      StandsIn xs x cs p → x.text = ";" → anyDefinition cs = false → Blames xs .semicolonOutside x
  | unmatched {x : Lexeme} {cs : List Construct} {p : Phrase} {k : Keyword} :
      StandsIn xs x cs p → k = .else_ ∨ k = .then_ → x.text = k.text → k ∉ innerClosers cs →
      Blames xs (.unmatched k) x
  | unexpected {x : Lexeme} {cs : List Construct} {p : Phrase} :
      StandsIn xs x cs p → x.text = ")" → Blames xs (.unexpected .closeParen) x
  | nestedDefinition {x : Lexeme} {cs : List Construct} {p : Phrase} :
      StandsIn xs x cs p → x.text = ":" → anyDefinition cs = true → Blames xs .nestedDefinition x
  | invalidName {colon x : Lexeme} {back : List Lexeme} :
      OpensDefinition xs colon (x :: back) → (∀ name, x.token.payload ≠ .identifier name) →
      Blames xs (.invalidName x.token) x
  -- what exceeds a limit
  | nestedTooDeep {x : Lexeme} {cs : List Construct} {p : Phrase} :
      StandsIn xs x cs p → x.text = "if" → nesting cs = nestingLimit → Blames xs .nestedTooDeep x
  | branchTooLong {x y : Lexeme} {outer p : Phrase} {cs : List Construct} :
      StandsIn xs y (.branch x outer :: cs) p → y.text = "then" →
      distanceLimit < p.code.length + 1 → Blames xs .branchTooLong x
  | alternativeTooLong {x y : Lexeme} {outer yes p : Phrase} {cs : List Construct} :
      StandsIn xs y (.alternative x outer yes :: cs) p → y.text = "then" →
      distanceLimit < yes.code.length + 2 ∨ distanceLimit < p.code.length + 1 →
      Blames xs .branchTooLong x

/-- An error of a text that ends at `finish` points at the lexeme to blame, or at the end if a
    name is missing there. -/
inductive SyntaxError.Points (xs : List Lexeme) (finish : Location) : SyntaxError → Prop where
  | lexeme {x : Lexeme} {fault : SyntaxFault} : fault.Blames xs x →
      Points xs finish ⟨x.location, fault⟩
  | finish {colon : Lexeme} : CommentsClosed 0 xs → OpensDefinition xs colon [] →
      Points xs finish ⟨finish, .invalidName ⟨finish, .endOfInput⟩⟩

theorem StandsIn.mem {xs : List Lexeme} {x : Lexeme} {cs : List Construct} {p : Phrase}
    (h : StandsIn xs x cs p) : x ∈ xs := by
  obtain ⟨front, back, hsplit, -⟩ := h
  have hmem : x ∈ outsideComments 0 xs := by simp [hsplit]
  exact mem_of_mem_outsideComments hmem

theorem StandsIn.opening_mem {xs : List Lexeme} {x : Lexeme} {c : Construct} {cs : List Construct}
    {p : Phrase} (h : StandsIn xs x (c :: cs) p) : c.opening ∈ xs := by
  obtain ⟨front, back, hsplit, hleads⟩ := h
  exact mem_of_mem_outsideComments (hsplit ▸ List.mem_append_left _ hleads.opening_mem)

theorem EndsIn.opening_mem {xs : List Lexeme} {c : Construct} {cs : List Construct} {p : Phrase}
    (h : EndsIn xs (c :: cs) p) : c.opening ∈ xs :=
  mem_of_mem_outsideComments h.2.opening_mem

/-- What is blamed stands in the text. -/
theorem SyntaxFault.Blames.mem {xs : List Lexeme} {fault : SyntaxFault} {x : Lexeme}
    (h : fault.Blames xs x) : x ∈ xs := by
  cases h with
  | unclosedComment h =>
    obtain ⟨front, back, rfl, -⟩ := h
    simp
  | unfinishedDefinition h | missingThen h | missingThenAfterElse h => exact h.opening_mem
  | semicolonInConditional h | semicolonOutside h | unmatched h | unexpected h
  | nestedDefinition h | nestedTooDeep h => exact h.mem
  | branchTooLong h | alternativeTooLong h => exact h.opening_mem
  | invalidName h =>
    obtain ⟨front, cs, p, hsplit, -⟩ := h
    have hmem : x ∈ outsideComments 0 xs := by simp [hsplit]
    exact mem_of_mem_outsideComments hmem

-- ---------------------------------------------------------------------------
-- Reads
-- ---------------------------------------------------------------------------

namespace Lexer

/-- The lexer behind `n` reads. -/
def after : Nat → Lexer → Lexer
  | 0, l => l
  | n + 1, l => after n l.readOnce.2

theorem after_succ (n : Nat) (l : Lexer) : after (n + 1) l = (after n l).readOnce.2 := by
  induction n generalizing l with
  | zero => rfl
  | succ n ih => exact ih l.readOnce.2

theorem read_eq_after (n : Nat) (l : Lexer) : read n l = (after n l).readOnce.1 := by
  induction n generalizing l with
  | zero => rfl
  | succ n ih => exact ih l.readOnce.2

/-- Looking ahead changes nothing for the next read. -/
theorem next_of_peek {l l' : Lexer} {t : Token} (h : peek l = .ok t l') :
    next l' = next l ∧ ∃ l'', next l = .ok t l'' := by
  unfold peek at h
  split at h
  · next u hp =>
    cases h
    exact ⟨rfl, by simp [next, hp]⟩
  · next hp =>
    split at h
    · next u l₁ hf =>
      cases h
      have hnone : l₁.pending = none := (pending_fresh hf).trans hp
      have hnext : next l = .ok t l₁ := by simp only [next, hp, hf]
      refine ⟨?_, l₁, hnext⟩
      rw [hnext, next]
      simp only [← hnone]
    · cases h

theorem next_of_peek_error {l l' : Lexer} {e : SyntaxError} (h : peek l = .error e l') :
    next l = .error e l' := by
  unfold peek at h
  split at h
  · cases h
  · next hp =>
    split at h
    · cases h
    · next hf =>
      cases h
      simp only [next, hp, hf]

/-- The lexer of a text with the lexemes `xs` and its end at `finish` has read the lexemes
    `front` outside of comments, and `rest` is left. -/
structure Behind (xs : List Lexeme) (finish : Location) (l : Lexer) (front rest : List Lexeme) :
    Prop where
  split : outsideComments 0 xs = front ++ rest
  next_eq : next l = next (after front.length { lexemes := xs, finish })

/-- What a read gives in front of the lexemes `rest`. -/
inductive Ahead (xs : List Lexeme) (finish : Location) :
    List Lexeme → Except SyntaxError Token → Prop where
  | lexeme (x : Lexeme) (rest : List Lexeme) : Ahead xs finish (x :: rest) (.ok x.token)
  | finish : CommentsClosed 0 xs → Ahead xs finish [] (.ok ⟨finish, .endOfInput⟩)
  | unclosed {x : Lexeme} {rest : List Lexeme} : EndsInside xs x →
      Ahead xs finish rest (.error ⟨x.location, .unclosedComment⟩)

namespace Behind

variable {xs front rest : List Lexeme} {finish : Location} {l l' : Lexer} {t : Token}
  {e : SyntaxError}

theorem readOnce_eq (h : l.Behind xs finish front rest) :
    l.readOnce = (after front.length { lexemes := xs, finish }).readOnce := by
  rw [readOnce, readOnce, h.next_eq]

/-- A read gives what is ahead. -/
theorem ahead (h : l.Behind xs finish front rest) : Ahead xs finish rest l.readOnce.1 := by
  obtain ⟨r, hr⟩ := exists_nthRead xs finish front.length
  have hread := read_of_nthRead hr
  rw [read_eq_after, ← h.readOnce_eq] at hread
  rw [hread]
  cases hr with
  | token hget hp =>
    rw [h.split, List.getElem?_append_right (Nat.le_refl _), Nat.sub_self] at hget
    cases rest with
    | nil => cases hget
    | cons y rest =>
      cases hget
      rw [← Token.ofText_eq_iff_denotes.2 hp]
      exact .lexeme _ rest
  | unclosed _ hinside => exact .unclosed hinside
  | finished hle hlast =>
    rw [h.split, List.length_append] at hle hlast
    obtain rfl : rest = [] := List.length_eq_zero_iff.1 (by omega)
    refine .finish (Classical.not_not.1 fun hopen => ?_)
    obtain ⟨x, hx⟩ := exists_endsInside hopen
    exact hlast rfl x hx

theorem next_ahead (h : l.Behind xs finish front rest) (hnext : next l = .ok t l') :
    Ahead xs finish rest (.ok t) := by
  have hahead := h.ahead
  rwa [readOnce, hnext] at hahead

theorem peek_ahead (h : l.Behind xs finish front rest) (hpeek : peek l = .ok t l') :
    Ahead xs finish rest (.ok t) := by
  obtain ⟨-, l'', hnext⟩ := next_of_peek hpeek
  exact h.next_ahead hnext

theorem error_ahead (h : l.Behind xs finish front rest) (hnext : next l = .error e l') :
    Ahead xs finish rest (.error e) := by
  have hahead := h.ahead
  rwa [readOnce, hnext] at hahead

/-- A read moves a lexer behind the lexeme that it reads. -/
theorem next {x : Lexeme} (h : l.Behind xs finish front (x :: rest))
    (hnext : Lexer.next l = .ok t l') : l'.Behind xs finish (front ++ [x]) rest := by
  refine ⟨by rw [h.split, List.append_assoc, List.singleton_append], ?_⟩
  rw [List.length_append, List.length_singleton, after_succ, ← h.readOnce_eq, readOnce, hnext]

/-- Looking ahead leaves a lexer where it is. -/
theorem peek (h : l.Behind xs finish front rest) (hpeek : Lexer.peek l = .ok t l') :
    l'.Behind xs finish front rest :=
  ⟨h.split, (next_of_peek hpeek).1.trans h.next_eq⟩

end Behind

end Lexer

-- ---------------------------------------------------------------------------
-- One token
-- ---------------------------------------------------------------------------

def Construct.frame : Construct → Frame
  | definition x outer name => .definition x.location outer.code.toArray name
  | branch x outer => .branch x.location outer.code.toArray
  | alternative x outer yes => .alternative x.location outer.code.toArray yes.code.toArray

theorem Construct.stops_frame (c : Construct) : c.frame.stops = c.closers := by
  cases c <;> rfl

theorem Construct.isConditional_frame (c : Construct) :
    c.frame.isConditional = c.isConditional := by
  cases c <;> rfl

namespace Work

/-- The compilation has the constructs `cs` open, and the code of `p` in the innermost one. -/
structure Mirrors (w : Work) (cs : List Construct) (p : Phrase) : Prop where
  stops : w.stops = []
  frames : w.frames = cs.map Construct.frame
  ops : w.ops = p.code.toArray
  defining : w.compiler.defining = anyDefinition cs

/-- The compilation has read the lexemes `front`, and has those constructs open that the
    lexemes lead into. -/
structure Follows (xs : List Lexeme) (finish : Location) (w : Work) (front rest : List Lexeme)
    (cs : List Construct) (p : Phrase) : Prop where
  behind : w.compiler.lexer.Behind xs finish front rest
  mirrors : w.Mirrors cs p
  leads : Leads front cs p
  /-- A name that was read as a call is not the name of a variable. -/
  last : p.endsInCall false = true → variableFollows (rest.map Lexeme.token) = false

/-- The compilation has also read the lexeme `x`, and has not reacted to it yet. -/
structure Meets (xs : List Lexeme) (finish : Location) (w : Work) (front : List Lexeme)
    (x : Lexeme) (rest : List Lexeme) (cs : List Construct) (p : Phrase) : Prop where
  behind : w.compiler.lexer.Behind xs finish (front ++ [x]) rest
  mirrors : w.Mirrors cs p
  leads : Leads front cs p
  last : p.endsInCall false = true → variableFollows [x.token] = false

/-- What a token makes of a compilation: one that follows the text, or an end. If it is an
    error, it points where it should. -/
inductive Proceeds (xs : List Lexeme) (finish : Location) : Progress → Prop where
  | more {w : Work} {front rest : List Lexeme} {cs : List Construct} {p : Phrase} :
      w.Follows xs finish front rest cs p → Proceeds xs finish (.more w)
  | ok {ops : List Op} {c : Compiler} : Proceeds xs finish (.ended (.ok ops c))
  | error {e : SyntaxError} {c : Compiler} : e.Points xs finish →
      Proceeds xs finish (.ended (.error e c))

variable {xs front rest : List Lexeme} {finish : Location} {w : Work} {x : Lexeme}
  {cs : List Construct} {p : Phrase}

/-- A compilation counts the conditionals among the open constructs. -/
theorem Mirrors.nesting (h : w.Mirrors cs p) : w.nesting = Construct.nesting cs := by
  rw [Work.nesting, h.frames, List.countP_map, Construct.nesting]
  exact congrArg (List.countP · cs) (funext Construct.isConditional_frame)

/-- A compilation reacts to the closers of the innermost construct. -/
theorem Mirrors.innerStops (h : w.Mirrors cs p) : w.innerStops = innerClosers cs := by
  rw [Work.innerStops, h.frames]
  cases cs with
  | nil => exact h.stops
  | cons c cs => exact c.stops_frame

theorem Mirrors.reading (h : w.Mirrors cs p) (lexer : Lexer) : (w.reading lexer).Mirrors cs p :=
  ⟨h.stops, h.frames, h.ops, h.defining⟩

/-- At the start of the text, or of a part of a construct. -/
theorem Follows.start (hbehind : w.compiler.lexer.Behind xs finish front rest)
    (hleads : Leads front cs .done) (hmirrors : w.Mirrors cs .done) :
    w.Follows xs finish front rest cs .done :=
  ⟨hbehind, hmirrors, hleads, fun h => absurd h Bool.false_ne_true⟩

/-- A failure points where it should, if its lexeme is the one to blame. -/
theorem proceeds_fail {fault : SyntaxFault} (h : fault.Blames xs x) :
    Proceeds xs finish (w.fail x.location fault) :=
  .error (.lexeme h)

/-- A read proceeds if the reaction does to the next lexeme, and to the end of the text
    behind the last one. -/
theorem proceeds_next {k : Token → Work → Progress}
    (h : w.compiler.lexer.Behind xs finish front rest)
    (hlexeme : ∀ x rest' lexer, rest = x :: rest' → lexer.Behind xs finish (front ++ [x]) rest' →
      Proceeds xs finish (k x.token (w.reading lexer)))
    (hfinish : ∀ lexer, rest = [] → CommentsClosed 0 xs →
      Proceeds xs finish (k ⟨finish, .endOfInput⟩ (w.reading lexer))) :
    Proceeds xs finish (w.read Lexer.next k) := by
  unfold read
  split
  · next t lexer hnext =>
    cases h.next_ahead hnext with
    | lexeme x rest => exact hlexeme x rest lexer rfl (h.next hnext)
    | finish hclosed => exact hfinish lexer rfl hclosed
  · next e lexer hnext =>
    cases h.error_ahead hnext with
    | unclosed hinside => exact .error (.lexeme (.unclosedComment hinside))

theorem proceeds_peek {k : Token → Work → Progress}
    (h : w.compiler.lexer.Behind xs finish front rest)
    (hlexeme : ∀ x rest' lexer, rest = x :: rest' → lexer.Behind xs finish front rest →
      Proceeds xs finish (k x.token (w.reading lexer)))
    (hfinish : ∀ lexer, rest = [] → lexer.Behind xs finish front rest →
      Proceeds xs finish (k ⟨finish, .endOfInput⟩ (w.reading lexer))) :
    Proceeds xs finish (w.read Lexer.peek k) := by
  unfold read
  split
  · next t lexer hpeek =>
    cases h.peek_ahead hpeek with
    | lexeme x rest => exact hlexeme x rest lexer rfl (h.peek hpeek)
    | finish => exact hfinish lexer rfl (h.peek hpeek)
  · next e lexer hpeek =>
    cases h.error_ahead (Lexer.next_of_peek_error hpeek) with
    | unclosed hinside => exact .error (.lexeme (.unclosedComment hinside))

/-- A statement without parts, with the op that it stands for. -/
theorem proceeds_emit {ys : List Lexeme} {q : Phrase} {op : Op}
    (hbehind : w.compiler.lexer.Behind xs finish (front ++ ys) rest) (hmirrors : w.Mirrors cs p)
    (hleads : Leads front cs p) (hq : SpelledIn cs ys q) (hcode : q.code = [op])
    (hlast : p.endsInCall false = true → variableFollows (ys.map Lexeme.token) = false)
    (hlast' : ∀ before, q.endsInCall before = true →
      variableFollows (rest.map Lexeme.token) = false) :
    Proceeds xs finish (w.emit op) := by
  refine .more ⟨hbehind, ?_, hleads.append hq hlast, ?_⟩
  · exact { hmirrors with ops := by simp [hmirrors.ops, Phrase.code_append, hcode] }
  · rw [Phrase.endsInCall_append]
    exact hlast' _

namespace Meets

/-- The lexeme that is met stands in the open constructs. -/
theorem standsIn (h : w.Meets xs finish front x rest cs p) : StandsIn xs x cs p :=
  ⟨front, rest, by simpa using h.behind.split, h.leads⟩

/-- A statement of one lexeme. -/
theorem simple {s : Simple} (h : w.Meets xs finish front x rest cs p)
    (hx : Derives (anyDefinition cs) [x.token] (.simple s .done)) :
    Proceeds xs finish (w.emit s.op) :=
  proceeds_emit h.behind h.mirrors h.leads (.simple h.leads.nesting_le hx) rfl h.last
    fun _ h => absurd h Bool.false_ne_true

theorem literal {v : Value} (h : w.Meets xs finish front x rest cs p)
    (hx : x.token.value? = some v) : Proceeds xs finish (w.emit (.push v)) :=
  h.simple (s := .push v) (.literal hx .done)

theorem reading (h : w.Meets xs finish front x rest cs p) {lexer : Lexer}
    (hlexer : lexer.Behind xs finish (front ++ [x]) rest) :
    (w.reading lexer).Meets xs finish front x rest cs p :=
  ⟨hlexer, h.mirrors.reading lexer, h.leads, h.last⟩

/-- A compilation proceeds at a name with no `!` or `@` behind it. -/
theorem call {name : String} (h : w.Meets xs finish front x rest cs p)
    (hx : x.token.payload = .identifier name) (hname : Primitive.find? name = none)
    (hrest : variableFollows (rest.map Lexeme.token) = false) :
    Proceeds xs finish (w.emit (.call name)) :=
  proceeds_emit (q := .call name .done) h.behind h.mirrors h.leads
    ⟨.call hx hname rfl .done, h.leads.nesting_le, (Phrase.fits_call _ _).2 Phrase.fits_done⟩ rfl
    h.last fun _ _ => hrest

/-- A variable is a name and a mark. -/
theorem marked {mark : Lexeme} {s : Simple} (h : w.Meets xs finish front x (mark :: rest) cs p)
    (hx : Derives (anyDefinition cs) [x.token, mark.token] (.simple s .done)) :
    Proceeds xs finish (w.read Lexer.next fun _ w => w.emit s.op) := by
  refine proceeds_next h.behind (fun y rest' lexer hrest hbehind => ?_)
    fun _ hnil => absurd hnil (List.cons_ne_nil _ _)
  cases hrest
  rw [List.append_assoc, List.singleton_append] at hbehind
  exact proceeds_emit hbehind (h.mirrors.reading lexer) h.leads (.simple h.leads.nesting_le hx) rfl
    h.last fun _ h => absurd h Bool.false_ne_true

/-- A compilation proceeds at a name. -/
theorem identifier {name : String} (h : w.Meets xs finish front x rest cs p)
    (hx : x.token.payload = .identifier name) : Proceeds xs finish (w.identifier name) := by
  unfold Work.identifier
  split
  · next prim hprim =>
    exact h.simple (s := .primitive prim) (.primitive hx hprim .done)
  · next hname =>
    refine proceeds_peek h.behind (fun mark rest' lexer hrest hbehind => ?_)
      fun lexer hrest hbehind => ?_
    · have h' := h.reading hbehind
      split
      · next hmark =>
        subst hrest
        exact h'.marked (s := .store name) (.store hx hname (of_decide_eq_true hmark) .done)
      · next hstore =>
        split
        · next hmark =>
          subst hrest
          exact h'.marked (s := .fetch name) (.fetch hx hname (of_decide_eq_true hmark) .done)
        · next hfetch => exact h'.call hx hname (by simp [hrest, variableFollows, hstore, hfetch])
    · exact (h.reading hbehind).call hx hname (by rw [hrest]; rfl)

/-- At a colon a compilation goes on inside of a definition, or blames the colon or what
    stands in place of the name. -/
theorem openDefinition (h : w.Meets xs finish front x rest cs p) (hx : x.text = ":") :
    Proceeds xs finish (w.openDefinition x.location) := by
  unfold Work.openDefinition
  split
  · next hdefining =>
    exact proceeds_fail (.nestedDefinition h.standsIn hx (h.mirrors.defining ▸ hdefining))
  · next hdefining =>
    have hcs : anyDefinition cs = false := h.mirrors.defining ▸ Bool.eq_false_iff.2 hdefining
    have hopens : OpensDefinition xs x rest :=
      ⟨front, cs, p, by simpa using h.behind.split, h.leads, hcs, hx⟩
    refine proceeds_next h.behind (fun title rest' lexer hrest hbehind => ?_)
      fun lexer hrest hclosed => ?_
    · dsimp only
      split
      · next name hname =>
        have hbehind' : lexer.Behind xs finish (front ++ [x, title]) rest' := by
          simpa using hbehind
        refine .more (.start hbehind' (h.leads.open_definition hcs hx hname) ?_)
        refine ⟨h.mirrors.stops, ?_, rfl, rfl⟩
        simp [Work.reading, h.mirrors.frames, h.mirrors.ops, Construct.frame]
      · next hname => exact proceeds_fail (.invalidName (hrest ▸ hopens) hname)
    · exact .error (.finish hclosed (hrest ▸ hopens))

/-- At an `if` a compilation goes on inside of a conditional, or blames the `if` beyond
    the limit. -/
theorem openConditional (h : w.Meets xs finish front x rest cs p) (hx : x.text = "if") :
    Proceeds xs finish (w.openConditional x.location) := by
  unfold Work.openConditional
  rw [h.mirrors.nesting]
  split
  · next hlt =>
    refine .more (.start h.behind (h.leads.open_branch hx hlt) ?_)
    refine ⟨h.mirrors.stops, ?_, rfl, h.mirrors.defining⟩
    simp [h.mirrors.frames, h.mirrors.ops, Construct.frame]
  · next hlt =>
    exact proceeds_fail (.nestedTooDeep h.standsIn hx
      (Nat.le_antisymm h.leads.nesting_le (Nat.le_of_not_lt hlt)))

/-- A compilation proceeds at a keyword that the innermost construct does not wait for. -/
theorem keyword {k : Keyword} (h : w.Meets xs finish front x rest cs p) (hx : x.text = k.text)
    (hk : k ∉ innerClosers cs) : Proceeds xs finish (w.keyword x.location k) := by
  cases k with
  | colon => exact h.openDefinition hx
  | if_ => exact h.openConditional hx
  | semicolon =>
    simp only [Work.keyword, h.mirrors.defining]
    split
    · next hcs => exact proceeds_fail (.semicolonInConditional h.standsIn hx hk hcs)
    · next hcs =>
      exact proceeds_fail (.semicolonOutside h.standsIn hx (Bool.eq_false_iff.2 hcs))
  | else_ => exact proceeds_fail (.unmatched h.standsIn (.inl rfl) hx hk)
  | then_ => exact proceeds_fail (.unmatched h.standsIn (.inr rfl) hx hk)
  | closeParen => exact proceeds_fail (.unexpected h.standsIn hx)

/-- At the `then` of a conditional a compilation goes on outside of it, or blames the
    `if` of one that is too long. -/
theorem closeBranch {opening : Lexeme} {outer : Phrase}
    (h : w.Meets xs finish front x rest (.branch opening outer :: cs) p) (hx : x.text = "then") :
    Proceeds xs finish (w.closeConditional opening.location (cs.map Construct.frame)
      outer.code.toArray (Op.ifThen? w.ops)) := by
  rw [h.mirrors.ops, Op.ifThen?, List.size_toArray]
  split
  · next hfit =>
    refine .more ⟨h.behind, ?_, h.leads.close_branch hx hfit, ?_⟩
    · refine ⟨h.mirrors.stops, rfl, ?_, h.mirrors.defining⟩
      simp [Phrase.code_append, Phrase.code]
    · simp [Phrase.endsInCall]
  · next hfit => exact proceeds_fail (.branchTooLong h.standsIn hx (Nat.lt_of_not_le hfit))

/-- At the `then` behind an `else` a compilation goes on outside of the conditional, or
    blames the `if` of one that is too long. -/
theorem closeAlternative {opening : Lexeme} {outer yes : Phrase}
    (h : w.Meets xs finish front x rest (.alternative opening outer yes :: cs) p)
    (hx : x.text = "then") :
    Proceeds xs finish (w.closeConditional opening.location (cs.map Construct.frame)
      outer.code.toArray (Op.ifThenElse? yes.code.toArray w.ops)) := by
  rw [h.mirrors.ops, Op.ifThenElse?, List.size_toArray, List.size_toArray]
  split
  · next hfit =>
    refine .more ⟨h.behind, ?_, h.leads.close_alternative hx hfit, ?_⟩
    · refine ⟨h.mirrors.stops, rfl, ?_, h.mirrors.defining⟩
      simp [Phrase.code_append, Phrase.code]
    · simp [Phrase.endsInCall]
  · next hfit =>
    rw [Decidable.not_and_iff_or_not, Nat.not_le, Nat.not_le] at hfit
    exact proceeds_fail (.alternativeTooLong h.standsIn hx hfit)

/-- A compilation proceeds at a keyword that the innermost construct waits for. -/
theorem stop {t : Token} {k : Keyword} (h : w.Meets xs finish front x rest cs p)
    (hx : x.text = k.text) (hk : k ∈ innerClosers cs) : Proceeds xs finish (w.stop t k) := by
  cases cs with
  | nil => cases hk
  | cons c cs =>
    simp only [Work.stop, h.mirrors.frames, List.map_cons]
    cases c with
    | definition opening outer name =>
      obtain rfl : k = .semicolon := List.mem_singleton.1 hk
      obtain ⟨hcs, hleads⟩ := h.leads.close_definition hx
      refine .more ⟨h.behind, ?_, hleads, ?_⟩
      · refine ⟨h.mirrors.stops, rfl, ?_, hcs.symm⟩
        simp [Phrase.code_append, Phrase.code]
      · simp [Phrase.endsInCall]
    | branch opening outer =>
      simp only [Construct.frame]
      split
      · next helse =>
        subst helse
        refine .more (.start h.behind (h.leads.go_on hx) ?_)
        refine ⟨h.mirrors.stops, ?_, rfl, h.mirrors.defining⟩
        simp [h.mirrors.ops, Construct.frame]
      · next helse =>
        obtain rfl : k = .then_ := List.mem_singleton.1 (List.mem_of_ne_of_mem helse hk)
        exact h.closeBranch hx
    | alternative opening outer yes =>
      obtain rfl : k = .then_ := List.mem_singleton.1 hk
      exact h.closeAlternative hx

/-- A compilation proceeds at any lexeme. -/
theorem token (h : w.Meets xs finish front x rest cs p) : Proceeds xs finish (w.token x.token) := by
  unfold Work.token
  split
  · next n hx => exact h.literal (by rw [Token.value?, hx])
  · next s hx => exact h.literal (by rw [Token.value?, hx])
  · next name hx => exact h.identifier hx
  · next k hx =>
    rw [h.mirrors.innerStops]
    split
    · next hk => exact h.stop (Lexeme.keyword_token_iff.1 hx) hk
    · next hk => exact h.keyword (Lexeme.keyword_token_iff.1 hx) hk
  · next hx => exact absurd hx (Token.Payload.ofText_ne_endOfInput _)

end Meets

/-- At the end of the text a compilation ends, or blames the start of the innermost open
    construct. -/
theorem Mirrors.endOfInput (h : w.Mirrors cs p) (hends : EndsIn xs cs p) :
    Proceeds xs finish w.endOfInput := by
  simp only [Work.endOfInput, h.frames]
  cases cs with
  | nil => exact .ok
  | cons c cs =>
    cases c with
    | definition opening outer name => exact proceeds_fail (.unfinishedDefinition hends)
    | branch opening outer => exact proceeds_fail (.missingThen hends)
    | alternative opening outer yes => exact proceeds_fail (.missingThenAfterElse hends)

namespace Follows

/-- A compilation that follows the text goes on to do so, or ends. -/
theorem step (h : w.Follows xs finish front rest cs p) : Proceeds xs finish w.step := by
  refine proceeds_next h.behind (fun x rest' lexer hrest hbehind => ?_)
    fun lexer hrest hclosed => ?_
  · subst hrest
    exact Meets.token ⟨hbehind, h.mirrors.reading lexer, h.leads, h.last⟩
  · have hfront : outsideComments 0 xs = front := by rw [h.behind.split, hrest, List.append_nil]
    exact (h.mirrors.reading lexer).endOfInput ⟨hclosed, hfront ▸ h.leads⟩

/-- A compilation follows the text as far as it comes. -/
theorem reaches {w' : Work} (h : w.Follows xs finish front rest cs p) (hreaches : w.Reaches w') :
    ∃ front rest cs p, w'.Follows xs finish front rest cs p := by
  induction hreaches generalizing front rest cs p with
  | refl => exact ⟨front, rest, cs, p, h⟩
  | step hstep _ ih =>
    have hproceeds := h.step
    rw [hstep] at hproceeds
    cases hproceeds with
    | more h' => exact ih h'

end Follows

end Work

/-- An error of a source text points where it should. -/
theorem SyntaxError.points_of_wordsOfSource {path source : String} {e : SyntaxError}
    (h : wordsOfSource path source = .error e) :
    e.Points (Text.lexemes path source.toList) (.behind path source.toList) := by
  have hlexer : Lexer.ofSource path source =
      { lexemes := Text.lexemes path source.toList, finish := .behind path source.toList } := by
    rw [Lexer.ofSource, Cursor.lexemes_ofSource]
  have hstart : Work.Follows (Text.lexemes path source.toList) (.behind path source.toList)
      { compiler := .ofSource path source, stops := [] } [] _ [] .done :=
    .start ⟨rfl, congrArg Lexer.next hlexer⟩ (.outside (.done (Nat.zero_le _)))
      ⟨rfl, rfl, rfl, rfl⟩
  rw [wordsOfSource_eq_run] at h
  obtain ⟨last, hreaches, hlast⟩ :=
    Work.exists_last { compiler := .ofSource path source, stops := [] }
  obtain ⟨front, rest, cs, p, hfollows⟩ := hstart.reaches hreaches
  have hproceeds := hfollows.step
  rw [hlast] at hproceeds
  split at h
  · cases h
  · next hrun =>
    cases h
    rw [hrun] at hproceeds
    cases hproceeds with
    | error hpoints => exact hpoints

-- ---------------------------------------------------------------------------
-- Faults of linking
-- ---------------------------------------------------------------------------

/-- A call in a compiled word has a name. -/
theorem Word.Compiled.exists_name {w : Word} {op : Op} (h : w.Compiled) (hop : op ∈ w.ops)
    (hcall : op.opcode = .call) : ∃ name, op.datum = .str name := by
  obtain ⟨body, hforward, hops⟩ := h
  rw [hops] at hop
  rcases List.mem_append.1 hop with hop | hop
  · obtain ⟨k, hk⟩ := List.mem_iff_getElem?.1 hop
    have hsound := hforward.sound hk
    rwa [Op.Sound, hcall] at hsound
  · cases List.mem_singleton.1 hop
    cases hcall

namespace Image

/-- Linking `word` between the words `before` and `behind` comes as far as to its op `op`. The
    op would stand at `address`, and the next constant has the index `pool`. -/
def LinksUpTo (image : Image) (before : List Word) (word : Word) (behind : List Word) (op : Op)
    (pool address : Nat) : Prop :=
  ∃ front back code data, word.ops = front ++ op :: back ∧
    Linked (place image.dictionary (before ++ word :: behind)) image.constants.size
      image.dictionary.nextAddress (opsOf before ++ front) code data ∧
    pool = image.constants.size + data.length ∧
    address = image.dictionary.nextAddress + (opsOf before ++ front).length

/-- Linking fails in `word`, between the words `before` and `behind`: it calls a name that no
    word has, or an argument of it is too large. -/
inductive FailsIn (image : Image) (before : List Word) (word : Word) (behind : List Word) :
    LinkFault → Prop where
  | undefinedWord {op : Op} {name : String} {pool address : Nat} :
      image.LinksUpTo before word behind op pool address →
      op.opcode = .call → op.datum = .str name →
      (place image.dictionary (before ++ word :: behind)).address? name = none →
      FailsIn image before word behind (.undefinedWord name word.name)
  | argumentTooLarge {op : Op} {argument pool address : Nat} :
      image.LinksUpTo before word behind op pool address →
      op.argument? (place image.dictionary (before ++ word :: behind)) pool address =
        some argument →
      Instruction.argumentLimit < argument →
      FailsIn image before word behind (.argumentTooLarge argument op.opcode word.name)

/-- An op that can not be emitted fails in its word. -/
theorem LinksUpTo.failsIn {image : Image} {before behind : List Word} {word : Word} {op : Op}
    {pool address : Nat} {e : LinkError} {image' : Image}
    (h : image.LinksUpTo before word behind op pool address)
    (hcall : op.opcode = .call → ∃ name, op.datum = .str name)
    (hdictionary : image'.dictionary = place image.dictionary (before ++ word :: behind))
    (hpool : image'.constants.size = pool) (herror : image'.emit word address op = .error e) :
    ∃ fault, e = ⟨some word.location, fault⟩ ∧ image.FailsIn before word behind fault := by
  cases harg : op.argument? image'.dictionary image'.constants.size address with
  | some argument =>
    rw [emit_of_argument? harg] at herror
    split at herror
    · cases herror
    · next hlarge =>
      cases herror
      rw [hdictionary, hpool] at harg
      exact ⟨_, rfl, .argumentTooLarge h harg (Nat.lt_of_not_le hlarge)⟩
  | none =>
    have hopcode : op.opcode = .call := by
      unfold Op.argument? at harg
      split at harg
      · next hop => exact hop
      all_goals cases harg
    obtain ⟨name, hname⟩ := hcall hopcode
    have hnone : image'.dictionary.address? name = none := by
      simpa [Op.argument?, hopcode, hname, Value.text?] using harg
    rw [emit_of_address?_eq_none hopcode hname hnone] at herror
    cases herror
    exact ⟨_, rfl, .undefinedWord h hopcode hname (hdictionary ▸ hnone)⟩

/-- Linking compiled words with top-level code at their end fails in one of them, and points at
    its definition. -/
theorem exists_failsIn {image : Image} {words : List Word} {top : Word} {e : LinkError}
    (h : image.link (words ++ [top]) = .error e) (htop : top.name = Word.topLevel)
    (hcompiled : ∀ w ∈ words ++ [top], w.Compiled) :
    ∃ before word behind fault, words ++ [top] = before ++ word :: behind ∧
      e = ⟨some word.location, fault⟩ ∧ image.FailsIn before word behind fault := by
  obtain ⟨before, word, behind, front, op, back, code, data, hwords, hops, hlinked, herror⟩ |
    hnone := exists_of_link_eq_error h
  · rw [hwords] at hlinked herror hcompiled
    have hcall : op.opcode = .call → ∃ name, op.datum = .str name :=
      (hcompiled word (by simp)).exists_name (by simp [hops])
    have hupTo : image.LinksUpTo before word behind op (image.constants.size + data.length)
        (image.dictionary.nextAddress + (opsOf before ++ front).length) :=
      ⟨front, back, code, data, hops, hlinked, rfl, rfl⟩
    obtain ⟨fault, rfl, hfails⟩ := hupTo.failsIn hcall rfl (by simp [extend]) herror
    exact ⟨before, word, behind, fault, hwords, rfl, hfails⟩
  · cases (find?_topLevel_place htop).symm.trans hnone

end Image

-- ---------------------------------------------------------------------------
-- Failed loads
-- ---------------------------------------------------------------------------

/-- The word of the code outside of all definitions of a text. -/
def Phrase.topWord (p : Phrase) (path : String) : Word :=
  .ofBody Word.topLevel (.start path) p.code

/-- The place that the error of a load points at. -/
inductive LoadError.PointsAt (m : Machine) (path source : String) :
    LoadError → Location → Prop where
  /-- A fault of the text points at the lexeme to blame. -/
  | lexeme {x : Lexeme} {fault : SyntaxFault} :
      x ∈ Text.lexemes path source.toList → fault.Blames (Text.lexemes path source.toList) x →
      PointsAt m path source (.source ⟨x.location, fault⟩) x.location
  /-- A fault in the word of a definition points at its colon. -/
  | definition {p : Phrase} {before behind : List Definition} {d : Definition}
      {x title : Lexeme} {fault : LinkFault} :
      Spells path source p → p.definitions = before ++ d :: behind →
      m.image.FailsIn (before.map Definition.word) d.word
        (behind.map Definition.word ++ [p.topWord path]) fault →
      [x, title] <:+: outsideComments 0 (Text.lexemes path source.toList) →
      x.location = d.location → x.text = ":" → title.text = d.name →
      PointsAt m path source (.link ⟨some x.location, fault⟩) x.location
  /-- Where a name is missing at the end of the text, the fault points at the end. -/
  | finish {colon : Lexeme} :
      CommentsClosed 0 (Text.lexemes path source.toList) →
      OpensDefinition (Text.lexemes path source.toList) colon [] →
      PointsAt m path source (.source ⟨.behind path source.toList,
        .invalidName ⟨.behind path source.toList, .endOfInput⟩⟩) (.behind path source.toList)
  /-- A fault in the code outside of all definitions points at the start of the text. -/
  | topLevel {p : Phrase} {fault : LinkFault} :
      Spells path source p → m.image.FailsIn p.definedWords (p.topWord path) [] fault →
      PointsAt m path source (.link ⟨some ⟨path, 1, 1⟩, fault⟩) ⟨path, 1, 1⟩

/-- Every lexeme of a text is at a place in it. -/
theorem Text.path_of_mem_lexemes {path : String} {cs : List Char} {x : Lexeme}
    (h : x ∈ lexemes path cs) : x.location.path = path := by
  obtain ⟨i, -, rfl⟩ := List.mem_map.1 h
  rfl

/-- A definition starts with a colon outside of comments, at its own place, and with its
    name behind it. -/
theorem Definition.OpensIn.exists_lexemes {d : Definition} {xs : List Lexeme}
    (h : d.OpensIn (tokensOf xs)) : ∃ x title, [x, title] <:+: outsideComments 0 xs ∧
      x.location = d.location ∧ x.text = ":" ∧ title.text = d.name := by
  obtain ⟨opening, title, ⟨front, back, hsplit⟩, hopening, hlocation, htitle⟩ := h
  obtain ⟨front', back', houtside, hfront, -⟩ := List.map_eq_append_iff.1 hsplit.symm
  obtain ⟨front'', pair, rfl, -, hpair⟩ := List.map_eq_append_iff.1 hfront
  obtain ⟨x, rest, rfl, rfl, hrest⟩ := List.map_eq_cons_iff.1 hpair
  obtain ⟨y, none, rfl, rfl, hnone⟩ := List.map_eq_cons_iff.1 hrest
  cases List.map_eq_nil_iff.1 hnone
  exact ⟨x, y, ⟨front'', back', houtside.symm⟩, hlocation,
    Lexeme.keyword_token_iff (k := .colon).1 hopening, Token.Payload.ofText_eq_identifier htitle⟩

/-- An error of linking the words of a text points at a definition, or at the start. -/
theorem LoadError.exists_pointsAt_of_link {m : Machine} {path source : String} {p : Phrase}
    {e : LinkError} (hspells : Spells path source p)
    (h : m.image.link (p.words (.start path)) = .error e) :
    ∃ l, e.location = some l ∧ l.path = path ∧ PointsAt m path source (.link e) l := by
  obtain ⟨before, word, behind, fault, hwords, rfl, hfails⟩ :=
    Image.exists_failsIn h rfl fun w hw => hspells.2.compiled_words hw
  refine ⟨word.location, rfl, ?_⟩
  rcases List.eq_nil_or_concat behind with rfl | ⟨behind, top, rfl⟩
  · obtain ⟨rfl, hword⟩ := List.append_inj' hwords rfl
    obtain rfl : p.topWord path = word := List.singleton_inj.1 hword
    exact ⟨rfl, .topLevel hspells hfails⟩
  · rw [List.concat_eq_append, ← List.cons_append, ← List.append_assoc] at hwords
    obtain ⟨hdefined, htop⟩ := List.append_inj' hwords rfl
    obtain rfl : p.topWord path = top := List.singleton_inj.1 htop
    obtain ⟨ds, rest, hds, rfl, hrest⟩ := List.map_eq_append_iff.1 hdefined
    obtain ⟨d, ds', rfl, rfl, rfl⟩ := List.map_eq_cons_iff.1 hrest
    have hopens := hspells.2.opensIn_of_mem_definitions (d := d) (by simp [hds])
    rw [Cursor.lexemes_ofSource] at hopens
    obtain ⟨x, title, hpart, hlocation, hx, htitle⟩ := hopens.exists_lexemes
    have hmem : x ∈ Text.lexemes path source.toList :=
      mem_of_mem_outsideComments (hpart.subset List.mem_cons_self)
    have hplace : d.word.location = x.location := hlocation.symm
    rw [hplace]
    exact ⟨Text.path_of_mem_lexemes hmem,
      .definition hspells hds (List.concat_eq_append .. ▸ hfails) hpart hlocation hx htitle⟩

/-- The error of a load that fails has no call trace, and it has a location in the text. That
    is the place of the lexeme which its fault is about, unless a name is missing at the end of
    the text or linking fails in the code outside of all definitions. -/
theorem Machine.pointsAt_of_load_eq_error {m : Machine} {path source : String} {e : LoadError}
    (h : m.load path source = .error e) :
    e.diagnostic.trace = none ∧
      ∃ l, e.diagnostic.location = some l ∧ l.path = path ∧ e.PointsAt m path source l := by
  unfold load at h
  split at h
  · next e' hwords =>
    cases h
    refine ⟨rfl, _, rfl, ?_⟩
    cases SyntaxError.points_of_wordsOfSource hwords with
    | lexeme hblames =>
      exact ⟨Text.path_of_mem_lexemes hblames.mem, .lexeme hblames.mem hblames⟩
    | finish hclosed hopens => exact ⟨rfl, .finish hclosed hopens⟩
  · next words hwords =>
    split at h
    · next e' hlink =>
      cases h
      obtain ⟨p, hspells, -, -, rfl⟩ := spells_of_wordsOfSource hwords
      exact ⟨rfl, LoadError.exists_pointsAt_of_link hspells hlink⟩
    · cases h

/-- The fault is in the second definition of the second text. The first one calls a word of the
    first text. -/
theorem Machine.pointsAt_of_load_eq_error_in_definition :
    (({} : Machine).tryLoad ("a", ": g 5 ;")).load "b"
        ": k g ; ( : f )\n1 if : f k u ; then f" =
      .error (.link ⟨some ⟨"b", 2, 6⟩, .undefinedWord "u" "f"⟩) ∧
      ∃ x title, [x, title] <:+: outsideComments 0
          (Text.lexemes "b" ": k g ; ( : f )\n1 if : f k u ; then f".toList) ∧
        x = ⟨⟨"b", 2, 6⟩, ":"⟩ ∧ title.text = "f" := by
  have hload : (({} : Machine).tryLoad ("a", ": g 5 ;")).load "b"
        ": k g ; ( : f )\n1 if : f k u ; then f" =
      .error (.link ⟨some ⟨"b", 2, 6⟩, .undefinedWord "u" "f"⟩) := by
    decide +kernel
  refine ⟨hload, ?_⟩
  obtain ⟨-, l, -, -, hpoints⟩ := pointsAt_of_load_eq_error hload
  generalize he : LoadError.link _ = e at hpoints
  cases hpoints with
  | lexeme | finish | topLevel => cases he
  | @definition _ _ _ _ x title _ _ _ hfails hpart _ hx htitle =>
    obtain ⟨hlocation, hfault⟩ := LinkError.mk.inj (LoadError.link.inj he)
    obtain ⟨location, text⟩ := x
    cases hlocation
    cases hx
    cases hfails with
    | argumentTooLarge => cases hfault
    | undefinedWord =>
      obtain ⟨-, hname⟩ := LinkFault.undefinedWord.inj hfault
      exact ⟨_, title, hpart, rfl, htitle.trans hname.symm⟩

end Forth
