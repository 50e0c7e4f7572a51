-- SUMMARY: The compiler accepts exactly the texts of the grammar, and gives the code of the phrase they spell.
import Forth.Compiler
import Forth.Proofs.Grammar
import Mathlib.Tactic.ByContra

/-!
# Parsing

A compilation that is about to read the tokens of a phrase goes on behind them,
with the code of the phrase emitted and its definitions finished. Conversely, a
compilation that ends well has read a phrase up to the next stop keyword of the
innermost open construct. Both are stated for a compilation at any place, with
any constructs open around it.
-/

namespace Forth

namespace Work

-- ---------------------------------------------------------------------------
-- Moving on
-- ---------------------------------------------------------------------------

/-- The compilation `w` behind some more code and finished words, with other
    tokens left to read. -/
def advance (w : Work) (lexer : Lexer) (ops : List Op) (words : List Word) : Work :=
  { w with
    compiler := { w.compiler with lexer, words := w.compiler.words ++ words.toArray }
    ops := w.ops ++ ops.toArray }

@[simp] theorem advance_lexer (w : Work) (lexer : Lexer) (ops : List Op) (words : List Word) :
    (w.advance lexer ops words).compiler.lexer = lexer := rfl

@[simp] theorem advance_defining (w : Work) (lexer : Lexer) (ops : List Op) (words : List Word) :
    (w.advance lexer ops words).compiler.defining = w.compiler.defining := rfl

@[simp] theorem advance_nesting (w : Work) (lexer : Lexer) (ops : List Op) (words : List Word) :
    (w.advance lexer ops words).nesting = w.nesting := rfl

@[simp] theorem advance_innerStops (w : Work) (lexer : Lexer) (ops : List Op) (words : List Word) :
    (w.advance lexer ops words).innerStops = w.innerStops := rfl

@[simp] theorem advance_advance (w : Work) (lexer lexer' : Lexer) (ops ops' : List Op)
    (words words' : List Word) :
    (w.advance lexer ops words).advance lexer' ops' words' =
      w.advance lexer' (ops ++ ops') (words ++ words') := by
  simp [advance, Array.append_assoc]

theorem advance_self (w : Work) : w.advance w.compiler.lexer [] [] = w := by
  simp [advance]

theorem advance_of_lexer (w : Work) (lexer : Lexer) :
    { w with compiler := { w.compiler with lexer } } = w.advance lexer [] [] := by
  simp [advance]

theorem emit_advance (w : Work) (lexer : Lexer) (op : Op) :
    (w.advance lexer [] []).emit op = .more (w.advance lexer [op] []) := by
  simp [emit, advance]

/-- `w` reads the tokens `ts`; behind them is the end of the text, or an unclosed
    comment. -/
abbrev Offers (w : Work) (ts : List Token) (closed : Prop) : Prop :=
  w.compiler.lexer.Offers ts closed

/-- `w` goes on behind the code `ops` and the words `words`, in front of the
    tokens `ts`. -/
def GoesOn (w : Work) (closed : Prop) (ts : List Token) (ops : List Op) (words : List Word) :
    Prop :=
  ∃ lexer, lexer.Offers ts closed ∧ w.run = (w.advance lexer ops words).run

variable {w : Work} {t u : Token} {ts : List Token} {closed : Prop}

theorem GoesOn.of_step {lexer : Lexer} {ops : List Op} {words : List Word}
    (h : w.step = .more (w.advance lexer ops words)) (hl : lexer.Offers ts closed) :
    w.GoesOn closed ts ops words :=
  ⟨lexer, hl, run_of_more h⟩

theorem read_next_cons (h : w.Offers (t :: ts) closed) (k : Token → Work → Progress) :
    ∃ lexer, lexer.Offers ts closed ∧ w.read Lexer.next k = k t (w.advance lexer [] []) := by
  obtain ⟨lexer, hnext, hoffers⟩ := h.next_cons
  exact ⟨lexer, hoffers, by simp only [read, hnext, advance_of_lexer]⟩

theorem read_peek_cons (h : w.Offers (t :: ts) closed) (k : Token → Work → Progress) :
    ∃ lexer, lexer.Offers (t :: ts) closed ∧
      w.read Lexer.peek k = k t (w.advance lexer [] []) := by
  obtain ⟨lexer, hpeek, hoffers⟩ := h.peek_cons
  exact ⟨lexer, hoffers, by simp only [read, hpeek, advance_of_lexer]⟩

/-- A step reacts to the first token that is offered. -/
theorem step_cons (h : w.Offers (t :: ts) closed) :
    ∃ lexer, lexer.Offers ts closed ∧ w.step = (w.advance lexer [] []).token t :=
  read_next_cons h _

-- ---------------------------------------------------------------------------
-- Simple statements
-- ---------------------------------------------------------------------------

/-- A literal is compiled to an op that pushes it. -/
theorem goesOn_literal {v : Value} (h : w.Offers (t :: ts) closed) (ht : t.value? = some v) :
    w.GoesOn closed ts [.push v] [] := by
  obtain ⟨lexer, hl, hstep⟩ := step_cons h
  refine .of_step ?_ hl
  rw [hstep]
  unfold Token.value? at ht
  split at ht
  · cases ht; simp only [token, emit_advance, *]
  · cases ht; simp only [token, emit_advance, *]
  · cases ht

/-- A primitive word is compiled to its operation. -/
theorem goesOn_primitive {name : String} {p : Primitive} (h : w.Offers (t :: ts) closed)
    (ht : t.payload = .identifier name) (hp : Primitive.find? name = some p) :
    w.GoesOn closed ts [{ opcode := p.opcode, arg := p.argument }] [] := by
  obtain ⟨lexer, hl, hstep⟩ := step_cons h
  refine .of_step ?_ hl
  simp only [hstep, token, ht, identifier, hp, emit_advance]

-- The mark behind the name of a variable is looked at first and then read.
/-- A name with `!` or `@` behind it is compiled to a store or a fetch. -/
theorem goesOn_variable {name mark : String} {op : Op} (h : w.Offers (t :: u :: ts) closed)
    (ht : t.payload = .identifier name) (hp : Primitive.find? name = none)
    (hu : u.payload = .identifier mark)
    (hmark : (mark = "!" ∧ op = .store name) ∨ (mark = "@" ∧ op = .fetch name)) :
    w.GoesOn closed ts [op] [] := by
  obtain ⟨lexer, hl, hstep⟩ := step_cons h
  simp only [token, ht, identifier, hp] at hstep
  obtain ⟨lexer', hl', hpeek⟩ := read_peek_cons (w := w.advance lexer [] []) hl _
  have hread : w.step = ((w.advance lexer [] []).advance lexer' [] []).read Lexer.next
      fun _ w => w.emit op := by
    rw [hstep, hpeek]
    rcases hmark with ⟨rfl, rfl⟩ | ⟨rfl, rfl⟩ <;> simp [Token.isIdentifier, hu]
  obtain ⟨lexer'', hl'', hnext⟩ :=
    read_next_cons (w := (w.advance lexer [] []).advance lexer' [] []) hl' fun _ w => w.emit op
  refine .of_step (hread.trans (hnext.trans ?_)) hl''
  simp only [advance_advance, List.append_nil, emit_advance]

/-- Any other name is compiled to a call. The token behind it is looked at, so an
    unclosed comment there would fail. -/
theorem goesOn_call {name : String} (h : w.Offers (t :: ts) closed)
    (ht : t.payload = .identifier name) (hp : Primitive.find? name = none)
    (hvar : variableFollows ts = false) (hc : ts = [] → closed) :
    w.GoesOn closed ts [.call name] [] := by
  obtain ⟨lexer, hl, hstep⟩ := step_cons h
  simp only [token, ht, identifier, hp] at hstep
  cases ts with
  | nil =>
    obtain ⟨u, lexer', hpeek, hend, hl'⟩ := hl.peek_nil (hc rfl)
    refine .of_step (hstep.trans ?_) hl'
    simp only [read, advance_lexer, hpeek, Token.isIdentifier, hend, advance_of_lexer,
      advance_advance, List.append_nil, emit_advance, reduceCtorEq, decide_false,
      Bool.false_eq_true, if_false]
  | cons u us =>
    obtain ⟨lexer', hl', hpeek⟩ := read_peek_cons (w := w.advance lexer [] []) hl _
    refine .of_step (hstep.trans (hpeek.trans ?_)) hl'
    simp only [variableFollows, Bool.or_eq_false_iff] at hvar
    simp only [hvar.1, hvar.2, Bool.false_eq_true, if_false, advance_advance, List.append_nil,
      emit_advance]

-- ---------------------------------------------------------------------------
-- Conditionals
-- ---------------------------------------------------------------------------

/-- `w` behind an `if` at `l`. -/
def inBranch (w : Work) (l : Location) : Work :=
  { w with frames := .branch l w.ops :: w.frames, ops := #[] }

/-- `w` behind the `else` of a conditional at `l` with the true part `yes`. -/
def inAlternative (w : Work) (l : Location) (yes : List Op) : Work :=
  { w with frames := .alternative l w.ops yes.toArray :: w.frames, ops := #[] }

@[simp] theorem inBranch_nesting (w : Work) (l : Location) :
    (w.inBranch l).nesting = w.nesting + 1 :=
  List.countP_cons_of_pos rfl

@[simp] theorem inAlternative_nesting (w : Work) (l : Location) (yes : List Op) :
    (w.inAlternative l yes).nesting = w.nesting + 1 :=
  List.countP_cons_of_pos rfl

/-- An `if` within the limit opens a conditional. -/
theorem run_if (h : w.Offers (t :: ts) closed) (ht : t.payload = .keyword .if_)
    (hstop : .if_ ∉ w.innerStops) (hnesting : w.nesting < nestingLimit) :
    ∃ lexer, lexer.Offers ts closed ∧
      w.run = ((w.advance lexer [] []).inBranch t.location).run := by
  obtain ⟨lexer, hl, hstep⟩ := step_cons h
  refine ⟨lexer, hl, run_of_more (hstep.trans ?_)⟩
  simp only [token, ht, advance_innerStops, hstop, if_false, keyword, openConditional,
    advance_nesting, hnesting, if_true]
  rfl

/-- A `then` closes a conditional without an `else`, and adds its code. -/
theorem run_then {lexer : Lexer} {l : Location} {yes : List Op} {words : List Word}
    (h : lexer.Offers (t :: ts) closed) (ht : t.payload = .keyword .then_)
    (hfit : yes.length + 1 ≤ distanceLimit) :
    ∃ lexer', lexer'.Offers ts closed ∧ ((w.inBranch l).advance lexer yes words).run =
      (w.advance lexer' (.jumpIfNot (yes.length + 1) :: yes) words).run := by
  obtain ⟨lexer', hl', hstep⟩ := step_cons (w := (w.inBranch l).advance lexer yes words) h
  refine ⟨lexer', hl', run_of_more (hstep.trans ?_)⟩
  simp [token, ht, innerStops, inBranch, advance, Frame.stops, stop, closeConditional, Op.ifThen?,
    hfit]

/-- An `else` goes on to the second part of a conditional. -/
theorem run_else {lexer : Lexer} {l : Location} {yes : List Op} {words : List Word}
    (h : lexer.Offers (t :: ts) closed) (ht : t.payload = .keyword .else_) :
    ∃ lexer', lexer'.Offers ts closed ∧ ((w.inBranch l).advance lexer yes words).run =
      ((w.advance lexer' [] words).inAlternative l yes).run := by
  obtain ⟨lexer', hl', hstep⟩ := step_cons (w := (w.inBranch l).advance lexer yes words) h
  refine ⟨lexer', hl', run_of_more (hstep.trans ?_)⟩
  simp [token, ht, innerStops, inBranch, inAlternative, advance, Frame.stops, stop]

/-- A `then` behind the second part closes a conditional, and adds its code. -/
theorem run_else_then {lexer : Lexer} {l : Location} {yes no : List Op} {words : List Word}
    (h : lexer.Offers (t :: ts) closed) (ht : t.payload = .keyword .then_)
    (hyes : yes.length + 2 ≤ distanceLimit) (hno : no.length + 1 ≤ distanceLimit) :
    ∃ lexer', lexer'.Offers ts closed ∧ ((w.inAlternative l yes).advance lexer no words).run =
      (w.advance lexer'
        (.jumpIfNot (yes.length + 2) :: (yes ++ .jump (no.length + 1) :: no)) words).run := by
  obtain ⟨lexer', hl', hstep⟩ := step_cons (w := (w.inAlternative l yes).advance lexer no words) h
  refine ⟨lexer', hl', run_of_more (hstep.trans ?_)⟩
  simp [token, ht, innerStops, inAlternative, advance, Frame.stops, stop, closeConditional,
    Op.ifThenElse?, hyes, hno]

-- ---------------------------------------------------------------------------
-- Definitions
-- ---------------------------------------------------------------------------

/-- `w` behind the colon at `l` and the name of a definition. -/
def inDefinition (w : Work) (l : Location) (name : String) : Work :=
  { w with
    compiler := { w.compiler with defining := true }
    frames := .definition l w.ops name :: w.frames
    ops := #[] }

@[simp] theorem inDefinition_nesting (w : Work) (l : Location) (name : String) :
    (w.inDefinition l name).nesting = w.nesting :=
  List.countP_cons_of_neg Bool.false_ne_true

/-- A colon and a name open a definition, outside of all definitions. -/
theorem run_colon {name : String} (h : w.Offers (t :: u :: ts) closed)
    (ht : t.payload = .keyword .colon) (hu : u.payload = .identifier name)
    (hstop : .colon ∉ w.innerStops) (hdef : w.compiler.defining = false) :
    ∃ lexer, lexer.Offers ts closed ∧
      w.run = ((w.advance lexer [] []).inDefinition t.location name).run := by
  obtain ⟨lexer, hl, hstep⟩ := step_cons h
  obtain ⟨lexer', hl', hnext⟩ := read_next_cons (w := w.advance lexer [] []) hl _
  refine ⟨lexer', hl', run_of_more (hstep.trans ?_)⟩
  simp only [token, ht, advance_innerStops, hstop, if_false, keyword, openDefinition,
    advance_defining, hdef, Bool.false_eq_true]
  rw [hnext]
  simp only [hu, advance_advance, List.append_nil]
  rfl

/-- A semicolon closes a definition, and adds its word. -/
theorem run_semicolon {lexer : Lexer} {l : Location} {name : String} {body : List Op}
    {words : List Word} (h : lexer.Offers (t :: ts) closed)
    (ht : t.payload = .keyword .semicolon) (hdef : w.compiler.defining = false) :
    ∃ lexer', lexer'.Offers ts closed ∧ ((w.inDefinition l name).advance lexer body words).run =
      (w.advance lexer' [] (words ++ [.ofBody name l body])).run := by
  obtain ⟨lexer', hl', hstep⟩ := step_cons (w := (w.inDefinition l name).advance lexer body words) h
  refine ⟨lexer', hl', run_of_more (hstep.trans ?_)⟩
  simp [token, ht, innerStops, inDefinition, advance, Frame.stops, stop, hdef]

-- ---------------------------------------------------------------------------
-- Phrases are read
-- ---------------------------------------------------------------------------

theorem GoesOn.trans {us : List Token} {ops ops' : List Op} {words words' : List Word}
    (h : w.GoesOn closed ts ops words)
    (h' : ∀ lexer, lexer.Offers ts closed →
      (w.advance lexer ops words).GoesOn closed us ops' words') :
    w.GoesOn closed us (ops ++ ops') (words ++ words') := by
  obtain ⟨lexer, hl, hrun⟩ := h
  obtain ⟨lexer', hl', hrun'⟩ := h' lexer hl
  exact ⟨lexer', hl', by rw [hrun, hrun', advance_advance]⟩

/-- The constructs of a phrase are not stopped by the constructs around it. -/
def StopsOutside (w : Work) : Prop :=
  .if_ ∉ w.innerStops ∧ .colon ∉ w.innerStops

/-- A compilation in front of a phrase goes on behind it. -/
theorem goesOn_of_derives {inside : Bool} {us : List Token} {p : Phrase} (h : Derives inside us p)
    (hc : closed) (hoffers : w.Offers (us ++ ts) closed) (hinside : w.compiler.defining = inside)
    (hstops : w.StopsOutside) (hdepth : w.nesting + p.depth ≤ nestingLimit) (hfits : p.Fits)
    (hts : variableFollows ts = false) : w.GoesOn closed ts p.code p.definedWords := by
  induction h generalizing w ts with
  | done => exact ⟨_, hoffers, by rw [Phrase.code, Phrase.definedWords, Phrase.definitions,
      List.map_nil, advance_self]⟩
  | literal hv _ ih =>
    rw [Phrase.fits_simple] at hfits
    exact (goesOn_literal hoffers hv).trans fun lexer hl =>
      ih hl hinside hstops hdepth hfits.2 hts
  | primitive ht hp _ ih =>
    rw [Phrase.fits_simple] at hfits
    exact (goesOn_primitive hoffers ht hp).trans fun lexer hl =>
      ih hl hinside hstops hdepth hfits.2 hts
  | store ht hp hmark _ ih =>
    rw [Phrase.fits_simple] at hfits
    exact (goesOn_variable hoffers ht hp hmark (.inl ⟨rfl, rfl⟩)).trans fun lexer hl =>
      ih hl hinside hstops hdepth hfits.2 hts
  | fetch ht hp hmark _ ih =>
    rw [Phrase.fits_simple] at hfits
    exact (goesOn_variable hoffers ht hp hmark (.inr ⟨rfl, rfl⟩)).trans fun lexer hl =>
      ih hl hinside hstops hdepth hfits.2 hts
  | call ht hp hvar _ ih =>
    rw [Phrase.fits_call] at hfits
    exact (goesOn_call hoffers ht hp (variableFollows_append hvar hts) fun _ => hc).trans
      fun lexer hl => ih hl hinside hstops hdepth hfits hts
  | @ifThen _ opening closing us vs yes rest hopen _ hclose _ ihyes ihrest =>
    simp only [Phrase.fits_ifThen] at hfits
    simp only [Phrase.depth] at hdepth
    rw [List.cons_append, List.append_assoc, List.cons_append] at hoffers
    obtain ⟨lexer₁, hl₁, hrun₁⟩ := run_if hoffers hopen hstops.1 (by omega)
    obtain ⟨lexer₂, hl₂, hrun₂⟩ := ihyes (w := (w.advance lexer₁ [] []).inBranch opening.location)
      hl₁ hinside (by simp [StopsOutside, innerStops, inBranch, Frame.stops])
      (by rw [inBranch_nesting, advance_nesting]; omega) hfits.2.1
      (variableFollows_of_keyword hclose)
    obtain ⟨lexer₃, hl₃, hrun₃⟩ := run_then (w := w.advance lexer₁ [] []) hl₂ hclose hfits.1
    have hgo : w.GoesOn closed (vs ++ ts) (.jumpIfNot (yes.code.length + 1) :: yes.code)
        yes.definedWords := ⟨lexer₃, hl₃, by rw [hrun₁, hrun₂, hrun₃, advance_advance]; rfl⟩
    simpa [Phrase.code, Phrase.definedWords, Phrase.definitions] using
      hgo.trans fun lexer hl => ihrest hl hinside hstops (by rw [advance_nesting]; omega)
        hfits.2.2 hts
  | @ifThenElse _ opening middle closing us vs xs yes no rest hopen _ hmid _ hclose _ ihyes ihno
      ihrest =>
    simp only [Phrase.fits_ifThenElse] at hfits
    simp only [Phrase.depth] at hdepth
    simp only [List.cons_append, List.append_assoc] at hoffers
    obtain ⟨lexer₁, hl₁, hrun₁⟩ := run_if hoffers hopen hstops.1 (by omega)
    obtain ⟨lexer₂, hl₂, hrun₂⟩ := ihyes (w := (w.advance lexer₁ [] []).inBranch opening.location)
      hl₁ hinside (by simp [StopsOutside, innerStops, inBranch, Frame.stops])
      (by rw [inBranch_nesting, advance_nesting]; omega) hfits.2.1
      (variableFollows_of_keyword hmid)
    obtain ⟨lexer₃, hl₃, hrun₃⟩ := run_else (w := w.advance lexer₁ [] []) hl₂ hmid
    obtain ⟨lexer₄, hl₄, hrun₄⟩ := ihno
      (w := ((w.advance lexer₁ [] []).advance lexer₃ [] yes.definedWords).inAlternative
        opening.location yes.code)
      hl₃ hinside (by simp [StopsOutside, innerStops, inAlternative, Frame.stops])
      (by rw [inAlternative_nesting, advance_nesting, advance_nesting]; omega) hfits.2.2.1
      (variableFollows_of_keyword hclose)
    obtain ⟨lexer₅, hl₅, hrun₅⟩ := run_else_then
      (w := (w.advance lexer₁ [] []).advance lexer₃ [] yes.definedWords) hl₄ hclose hfits.1.1
      hfits.1.2
    have hgo : w.GoesOn closed (xs ++ ts)
        (.jumpIfNot (yes.code.length + 2) ::
          (yes.code ++ .jump (no.code.length + 1) :: no.code))
        (yes.definedWords ++ no.definedWords) :=
      ⟨lexer₅, hl₅, by rw [hrun₁, hrun₂, hrun₃, hrun₄, hrun₅]; simp⟩
    simpa [Phrase.code, Phrase.definedWords, Phrase.definitions] using
      hgo.trans fun lexer hl => ihrest hl hinside hstops (by rw [advance_nesting]; omega)
        hfits.2.2.2 hts
  | @definition opening title closing name us vs body rest hopen htitle hbody hclose _ ihbody
      ihrest =>
    simp only [Phrase.fits_definition] at hfits
    simp only [Phrase.depth] at hdepth
    simp only [List.cons_append, List.append_assoc] at hoffers
    have hnone : body.definedWords = [] := by
      rw [Phrase.definedWords, hbody.definitions_of_inside, List.map_nil]
    have hbodyFits : body.Fits := ⟨hfits.1, by simp [hnone]⟩
    obtain ⟨lexer₁, hl₁, hrun₁⟩ := run_colon hoffers hopen htitle hstops.2 hinside
    obtain ⟨lexer₂, hl₂, hrun₂⟩ := ihbody
      (w := (w.advance lexer₁ [] []).inDefinition opening.location name)
      hl₁ rfl (by simp [StopsOutside, innerStops, inDefinition, Frame.stops])
      (by rw [inDefinition_nesting, advance_nesting]; omega) hbodyFits
      (variableFollows_of_keyword hclose)
    obtain ⟨lexer₃, hl₃, hrun₃⟩ := run_semicolon (w := w.advance lexer₁ [] []) hl₂ hclose hinside
    have hgo : w.GoesOn closed (vs ++ ts) [] [.ofBody name opening.location body.code] :=
      ⟨lexer₃, hl₃, by rw [hrun₁, hrun₂, hrun₃]; simp [hnone]⟩
    simpa [Phrase.code, Phrase.definedWords, Phrase.definitions, Definition.word] using
      hgo.trans fun lexer hl => ihrest hl hinside hstops (by rw [advance_nesting]; omega)
        hfits.2 hts

-- ---------------------------------------------------------------------------
-- What is read is a phrase
-- ---------------------------------------------------------------------------

/-- The tokens go on with a keyword that the innermost construct reacts to, or
    there are none. -/
def AtStop (w : Work) : List Token → Prop
  | [] => True
  | t :: _ => ∃ k ∈ w.innerStops, t.payload = .keyword k

/-- `w` reads the phrase `p` from the tokens `us`, up to a stop in front of `vs`. -/
structure Reads (w : Work) (closed : Prop) (us vs : List Token) (p : Phrase) : Prop where
  derives : Derives w.compiler.defining us p
  depth : w.nesting + p.depth ≤ nestingLimit
  fits : p.Fits
  stop : w.AtStop vs
  goesOn : w.GoesOn closed vs p.code p.definedWords

theorem run_ne_ok {e : SyntaxError} {c c' : Compiler} {ops : List Op}
    (h : w.step = .ended (.error e c)) : w.run ≠ .ok ops c' := by
  rw [run_of_ended h]
  intro hrun
  cases hrun

/-- A compilation ends well at the end of the text only if nothing is open. -/
theorem run_nil {ops : List Op} {c : Compiler} (h : w.Offers [] closed)
    (hrun : w.run = .ok ops c) :
    closed ∧ w.frames = [] ∧ ops = w.ops.toList ∧ c.words = w.compiler.words ∧
      c.start = w.compiler.start := by
  by_cases hc : closed
  · obtain ⟨t, lexer, hnext, hend, -⟩ := h.next_nil hc
    have hstep : w.step = (w.advance lexer [] []).endOfInput := by
      simp only [step, read, hnext, advance_of_lexer, token, hend]
    cases hframes : w.frames with
    | nil =>
      simp only [endOfInput, advance, hframes] at hstep
      rw [run_of_ended hstep] at hrun
      cases hrun
      exact ⟨hc, rfl, by simp, by simp, rfl⟩
    | cons f fs =>
      cases f <;>
        simp only [endOfInput, advance, hframes, fail] at hstep <;>
        exact absurd hrun (run_ne_ok hstep)
  · obtain ⟨e, lexer, hnext⟩ := h.next_unclosed hc
    have hstep : w.step = .ended (.error e { w.compiler with lexer }) := by
      simp only [step, read, hnext]
    exact absurd hrun (run_ne_ok hstep)

/-- In front of a stop a compilation reads the empty phrase. -/
theorem Reads.nil (h : w.Offers ts closed) (hnesting : w.nesting ≤ nestingLimit)
    (hstop : w.AtStop ts) : w.Reads closed [] ts .done where
  derives := .done
  depth := hnesting
  fits := Phrase.fits_done
  stop := hstop
  goesOn := ⟨_, h, congrArg run (advance_self w).symm⟩

/-- A phrase is read together with a statement in front of it. -/
theorem Reads.cons {us vs us' : List Token} {p p' : Phrase} {ops : List Op} {words : List Word}
    {lexer : Lexer} (hrun : w.run = (w.advance lexer ops words).run)
    (h : (w.advance lexer ops words).Reads closed us vs p)
    (hderives : Derives w.compiler.defining us' p')
    (hdepth : w.nesting + p'.depth ≤ nestingLimit) (hfits : p'.Fits)
    (hcode : p'.code = ops ++ p.code) (hwords : p'.definedWords = words ++ p.definedWords) :
    w.Reads closed us' vs p' where
  derives := hderives
  depth := hdepth
  fits := hfits
  stop := h.stop
  goesOn := by
    obtain ⟨lexer', hl', hgo⟩ := h.goesOn
    exact ⟨lexer', hl', by rw [hrun, hgo, advance_advance, hcode, hwords]⟩

theorem Reads.simple {us vs us' : List Token} {p : Phrase} {s : Simple} {lexer : Lexer}
    (hrun : w.run = (w.advance lexer [s.op] []).run)
    (h : (w.advance lexer [s.op] []).Reads closed us vs p) (hs : s.op.Fits)
    (hderives : Derives w.compiler.defining us' (.simple s p)) :
    w.Reads closed us' vs (.simple s p) :=
  h.cons hrun hderives h.depth ((Phrase.fits_simple s p).2 ⟨hs, h.fits⟩) rfl rfl

/-- A conditional without an `else` that is compiled is short enough. -/
theorem fit_of_run_then {lexer : Lexer} {l : Location} {yes ops : List Op} {words : List Word}
    {c : Compiler} (h : lexer.Offers (t :: ts) closed) (ht : t.payload = .keyword .then_)
    (hrun : ((w.inBranch l).advance lexer yes words).run = .ok ops c) :
    yes.length + 1 ≤ distanceLimit := by
  by_contra hfit
  have hnone : Op.ifThen? yes.toArray = none := if_neg hfit
  obtain ⟨lexer', -, hstep⟩ := step_cons (w := (w.inBranch l).advance lexer yes words) h
  have hended : ((w.inBranch l).advance lexer yes words).step =
      .ended (.error ⟨l, .branchTooLong⟩ (w.advance lexer' [] words).compiler) := by
    rw [hstep]
    simp [token, ht, innerStops, inBranch, advance, Frame.stops, stop, closeConditional, hnone, fail]
  exact run_ne_ok hended hrun

theorem fit_of_run_else_then {lexer : Lexer} {l : Location} {yes no ops : List Op}
    {words : List Word} {c : Compiler} (h : lexer.Offers (t :: ts) closed)
    (ht : t.payload = .keyword .then_)
    (hrun : ((w.inAlternative l yes).advance lexer no words).run = .ok ops c) :
    yes.length + 2 ≤ distanceLimit ∧ no.length + 1 ≤ distanceLimit := by
  by_contra hfit
  have hnone : Op.ifThenElse? yes.toArray no.toArray = none := if_neg hfit
  obtain ⟨lexer', -, hstep⟩ := step_cons (w := (w.inAlternative l yes).advance lexer no words) h
  have hended : ((w.inAlternative l yes).advance lexer no words).step =
      .ended (.error ⟨l, .branchTooLong⟩ (w.advance lexer' [] words).compiler) := by
    rw [hstep]
    simp [token, ht, innerStops, inAlternative, advance, Frame.stops, stop, closeConditional, hnone,
      fail]
  exact run_ne_ok hended hrun

/-- Every compilation that ends well and has at most `n` tokens left reads a
    phrase first. -/
def ReadsPhrases (closed : Prop) (n : Nat) : Prop :=
  ∀ (w : Work) (ts : List Token) (ops : List Op) (c : Compiler), ts.length ≤ n →
    w.Offers ts closed → w.nesting ≤ nestingLimit → w.run = .ok ops c →
    ∃ us vs p, ts = us ++ vs ∧ w.Reads closed us vs p

variable {n : Nat} {ops : List Op} {c : Compiler}

/-- A compilation that goes on behind some code reads a phrase there, if it ends well. -/
theorem ReadsPhrases.behind (ih : ReadsPhrases closed n) {ops' : List Op} {words : List Word}
    (hlen : ts.length ≤ n) (hgo : w.GoesOn closed ts ops' words)
    (hnesting : w.nesting ≤ nestingLimit) (hrun : w.run = .ok ops c) :
    ∃ lexer us vs p, ts = us ++ vs ∧ w.run = (w.advance lexer ops' words).run ∧
      (w.advance lexer ops' words).Reads closed us vs p := by
  obtain ⟨lexer, hl, hgo⟩ := hgo
  obtain ⟨us, vs, p, hts, hreads⟩ :=
    ih (w.advance lexer ops' words) ts ops c hlen hl hnesting (hgo.symm.trans hrun)
  exact ⟨lexer, us, vs, p, hts, hgo, hreads⟩

/-- A construct that is open is read up to its next stop keyword, which is there. -/
theorem reads_up_to_stop (ih : ReadsPhrases closed n) {f : Frame} {fs : List Frame}
    (hframes : w.frames = f :: fs) (h : w.Offers ts closed) (hlen : ts.length ≤ n)
    (hnesting : w.nesting ≤ nestingLimit) (hrun : w.run = .ok ops c) :
    ∃ us u vs p, ∃ k ∈ f.stops, ∃ lexer, ts = us ++ u :: vs ∧ u.payload = .keyword k ∧
      w.Reads closed us (u :: vs) p ∧ lexer.Offers (u :: vs) closed ∧
      w.run = (w.advance lexer p.code p.definedWords).run := by
  obtain ⟨us, vs, p, rfl, hreads⟩ := ih w ts ops c hlen h hnesting hrun
  obtain ⟨lexer, hl, hgo⟩ := hreads.goesOn
  cases vs with
  | nil =>
    obtain ⟨-, hnil, -⟩ := run_nil hl (hgo.symm.trans hrun)
    exact absurd (hframes.symm.trans hnil) (List.cons_ne_nil f fs)
  | cons u vs =>
    obtain ⟨k, hk, hu⟩ := hreads.stop
    simp only [innerStops, hframes] at hk
    exact ⟨us, u, vs, p, k, hk, lexer, rfl, hu, hreads, hl, hgo⟩

/-- A compilation that ends well does not open a conditional beyond the limit. -/
theorem nesting_of_run_if (h : w.Offers (t :: ts) closed) (ht : t.payload = .keyword .if_)
    (hstop : .if_ ∉ w.innerStops) (hrun : w.run = .ok ops c) : w.nesting + 1 ≤ nestingLimit := by
  by_contra hn
  obtain ⟨lexer, -, hstep⟩ := step_cons h
  simp only [token, ht, advance_innerStops, hstop, if_false, keyword, openConditional,
    advance_nesting, Nat.lt_iff_add_one_le, hn, fail] at hstep
  exact run_ne_ok hstep hrun

section Conditional

variable {u : Token} {us vs : List Token} {yes : Phrase} {lexer₁ lexer₂ : Lexer}

/-- A conditional that was read up to its `then` is read together with what follows. -/
theorem reads_then (ih : ReadsPhrases closed n) (ht : t.payload = .keyword .if_)
    (hyes : ((w.advance lexer₁ [] []).inBranch t.location).Reads closed us (u :: vs) yes)
    (hoffers : lexer₂.Offers (u :: vs) closed) (hu : u.payload = .keyword .then_)
    (hgo : w.run = (((w.advance lexer₁ [] []).inBranch t.location).advance lexer₂ yes.code
      yes.definedWords).run)
    (hlen : vs.length ≤ n) (hrun : w.run = .ok ops c) :
    ∃ us' vs' p, t :: (us ++ u :: vs) = us' ++ vs' ∧ w.Reads closed us' vs' p := by
  have hdepth := hyes.depth
  rw [inBranch_nesting, advance_nesting] at hdepth
  have hfit := fit_of_run_then hoffers hu (hgo.symm.trans hrun)
  obtain ⟨lexer₃, hl₃, hrun₃⟩ := run_then (w := w.advance lexer₁ [] []) hoffers hu hfit
  rw [← hgo, advance_advance] at hrun₃
  obtain ⟨lexer, xs, vs, rest, rfl, hgo', hrest⟩ :=
    ih.behind hlen ⟨lexer₃, hl₃, hrun₃⟩ (by omega) hrun
  have hdepth' := hrest.depth
  rw [advance_nesting] at hdepth'
  refine ⟨t :: (us ++ u :: xs), vs, .ifThen yes rest, by simp, ?_⟩
  refine hrest.cons hgo' (.ifThen ht hyes.derives hu hrest.derives) ?_ ?_ ?_ ?_
  · simp only [Phrase.depth]; omega
  · exact (Phrase.fits_ifThen yes rest).2 ⟨hfit, hyes.fits, hrest.fits⟩
  · simp [Phrase.code]
  · simp [Phrase.definedWords, Phrase.definitions]

/-- A conditional that was read up to its `else` is read together with what follows. -/
theorem reads_else (ih : ReadsPhrases closed n) (ht : t.payload = .keyword .if_)
    (hyes : ((w.advance lexer₁ [] []).inBranch t.location).Reads closed us (u :: vs) yes)
    (hoffers : lexer₂.Offers (u :: vs) closed) (hu : u.payload = .keyword .else_)
    (hgo : w.run = (((w.advance lexer₁ [] []).inBranch t.location).advance lexer₂ yes.code
      yes.definedWords).run)
    (hlen : vs.length ≤ n) (hrun : w.run = .ok ops c) :
    ∃ us' vs' p, t :: (us ++ u :: vs) = us' ++ vs' ∧ w.Reads closed us' vs' p := by
  have hdepth := hyes.depth
  rw [inBranch_nesting, advance_nesting] at hdepth
  obtain ⟨lexer₃, hl₃, hrun₃⟩ := run_else (w := w.advance lexer₁ [] []) hoffers hu
  rw [← hgo] at hrun₃
  -- the false part is a phrase of its own
  obtain ⟨us', u', vs, no, k, hk, lexer₄, rfl, hu', hno, hl₄, hrun₄⟩ :=
    reads_up_to_stop ih rfl hl₃ hlen
      (by rw [inAlternative_nesting, advance_nesting, advance_nesting]; omega)
      (hrun₃.symm.trans hrun)
  rw [← hrun₃] at hrun₄
  have hdepth' := hno.depth
  rw [inAlternative_nesting, advance_nesting, advance_nesting] at hdepth'
  rw [List.length_append, List.length_cons] at hlen
  cases List.mem_singleton.1 hk
  have hfit := fit_of_run_else_then hl₄ hu' (hrun₄.symm.trans hrun)
  obtain ⟨lexer₅, hl₅, hrun₅⟩ := run_else_then
    (w := (w.advance lexer₁ [] []).advance lexer₃ [] yes.definedWords) hl₄ hu' hfit.1 hfit.2
  rw [← hrun₄, advance_advance, advance_advance] at hrun₅
  obtain ⟨lexer, xs, vs, rest, rfl, hgo', hrest⟩ :=
    ih.behind (by omega) ⟨lexer₅, hl₅, hrun₅⟩ (by omega) hrun
  have hdepth'' := hrest.depth
  rw [advance_nesting] at hdepth''
  refine ⟨t :: (us ++ u :: (us' ++ u' :: xs)), vs, .ifThenElse yes no rest, by simp, ?_⟩
  refine hrest.cons hgo' (.ifThenElse ht hyes.derives hu hno.derives hu' hrest.derives) ?_ ?_ ?_ ?_
  · simp only [Phrase.depth]; omega
  · exact (Phrase.fits_ifThenElse yes no rest).2 ⟨hfit, hyes.fits, hno.fits, hrest.fits⟩
  · simp [Phrase.code]
  · simp [Phrase.definedWords, Phrase.definitions]

end Conditional

/-- A compilation that ends well reads a conditional behind an `if`, and a phrase behind
    it. -/
theorem reads_if (ih : ReadsPhrases closed n) (h : w.Offers (t :: ts) closed)
    (hlen : ts.length ≤ n) (ht : t.payload = .keyword .if_) (hstop : .if_ ∉ w.innerStops)
    (hrun : w.run = .ok ops c) : ∃ us vs p, t :: ts = us ++ vs ∧ w.Reads closed us vs p := by
  have hn := nesting_of_run_if h ht hstop hrun
  obtain ⟨lexer₁, hl₁, hrun₁⟩ := run_if h ht hstop hn
  obtain ⟨us, u, vs, yes, k, hk, lexer₂, rfl, hu, hyes, hl₂, hrun₂⟩ :=
    reads_up_to_stop ih rfl hl₁ hlen (by rwa [inBranch_nesting, advance_nesting])
      (hrun₁.symm.trans hrun)
  rw [← hrun₁] at hrun₂
  rw [List.length_append, List.length_cons] at hlen
  simp only [Frame.stops, List.mem_cons, List.not_mem_nil, or_false] at hk
  rcases hk with rfl | rfl
  · exact reads_else ih ht hyes hl₂ hu hrun₂ (by omega) hrun
  · exact reads_then ih ht hyes hl₂ hu hrun₂ (by omega) hrun

/-- A colon that does not end a compilation stands outside of definitions and in
    front of a name. -/
theorem name_of_run_colon (h : w.Offers (t :: ts) closed) (ht : t.payload = .keyword .colon)
    (hstop : .colon ∉ w.innerStops) (hrun : w.run = .ok ops c) :
    w.compiler.defining = false ∧ ∃ u us name, ts = u :: us ∧ u.payload = .identifier name := by
  obtain ⟨lexer, hl, hstep⟩ := step_cons h
  simp only [token, ht, advance_innerStops, hstop, if_false, keyword, openDefinition,
    advance_defining] at hstep
  cases hdef : w.compiler.defining with
  | true =>
    simp only [hdef, if_true, fail] at hstep
    exact absurd hrun (run_ne_ok hstep)
  | false =>
    refine ⟨rfl, ?_⟩
    simp only [hdef, Bool.false_eq_true, if_false] at hstep
    cases ts with
    | nil =>
      by_cases hc : closed
      · obtain ⟨u, lexer', hnext, hend, -⟩ := hl.next_nil hc
        simp only [read, advance_lexer, hnext, hend, fail] at hstep
        exact absurd hrun (run_ne_ok hstep)
      · obtain ⟨e, lexer', hnext⟩ := hl.next_unclosed hc
        simp only [read, advance_lexer, hnext] at hstep
        exact absurd hrun (run_ne_ok hstep)
    | cons u us =>
      obtain ⟨lexer', -, hnext⟩ := read_next_cons (w := w.advance lexer [] []) hl _
      rw [hnext] at hstep
      cases hu : u.payload with
      | identifier name => exact ⟨u, us, name, rfl, hu⟩
      | _ =>
        simp only [hu, fail] at hstep
        exact absurd hrun (run_ne_ok hstep)

/-- A compilation that ends well reads a definition behind a colon, and a phrase behind
    it. -/
theorem reads_colon (ih : ReadsPhrases closed n) (h : w.Offers (t :: ts) closed)
    (hlen : ts.length ≤ n) (ht : t.payload = .keyword .colon) (hstop : .colon ∉ w.innerStops)
    (hnesting : w.nesting ≤ nestingLimit) (hrun : w.run = .ok ops c) :
    ∃ us vs p, t :: ts = us ++ vs ∧ w.Reads closed us vs p := by
  obtain ⟨hdef, title, ts, name, rfl, htitle⟩ := name_of_run_colon h ht hstop hrun
  rw [List.length_cons] at hlen
  obtain ⟨lexer₁, hl₁, hrun₁⟩ := run_colon h ht htitle hstop hdef
  obtain ⟨us, u, vs, body, k, hk, lexer₂, rfl, hu, hbody, hl₂, hrun₂⟩ :=
    reads_up_to_stop ih rfl hl₁ (by omega) (by rwa [inDefinition_nesting, advance_nesting])
      (hrun₁.symm.trans hrun)
  rw [← hrun₁] at hrun₂
  have hdepth := hbody.depth
  rw [inDefinition_nesting, advance_nesting] at hdepth
  rw [List.length_append, List.length_cons] at hlen
  cases List.mem_singleton.1 hk
  obtain ⟨lexer₃, hl₃, hrun₃⟩ := run_semicolon (w := w.advance lexer₁ [] []) hl₂ hu hdef
  rw [← hrun₂, advance_advance] at hrun₃
  obtain ⟨lexer, xs, vs, rest, rfl, hgo, hrest⟩ :=
    ih.behind (by omega) ⟨lexer₃, hl₃, hrun₃⟩ hnesting hrun
  have hdepth' := hrest.depth
  rw [advance_nesting] at hdepth'
  have hbodyDerives : Derives true us body := hbody.derives
  have hrestDerives : Derives false xs rest := hdef ▸ hrest.derives
  refine ⟨t :: title :: (us ++ u :: xs), vs, .definition t.location name body rest, by simp, ?_⟩
  refine hrest.cons hgo ?_ ?_ ?_ ?_ ?_
  · exact hdef ▸ .definition ht htitle hbodyDerives hu hrestDerives
  · simp only [Phrase.depth]; omega
  · exact (Phrase.fits_definition t.location name body rest).2 ⟨hbody.fits.1, hrest.fits⟩
  · simp [Phrase.code]
  · simp [Phrase.definedWords, Phrase.definitions, Definition.word,
      hbodyDerives.definitions_of_inside]

theorem fits_of_find? {name : String} {p : Primitive} (h : Primitive.find? name = some p) :
    (Simple.primitive p).op.Fits := by
  have hp : p ∈ Primitive.all := List.mem_of_find?_eq_some h
  simp only [Primitive.all, List.mem_cons, List.not_mem_nil, or_false] at hp
  rcases hp with rfl | rfl | rfl | rfl | rfl | rfl | rfl <;> simp [Simple.op, Op.Fits]

/-- A compilation that ends well reads a phrase from a literal on. -/
theorem reads_literal {v : Value} (ih : ReadsPhrases closed n) (h : w.Offers (t :: ts) closed)
    (hlen : ts.length ≤ n) (ht : t.value? = some v) (hnesting : w.nesting ≤ nestingLimit)
    (hrun : w.run = .ok ops c) : ∃ us vs p, t :: ts = us ++ vs ∧ w.Reads closed us vs p := by
  obtain ⟨lexer, us, vs, rest, rfl, hgo, hrest⟩ :=
    ih.behind hlen (goesOn_literal h ht) hnesting hrun
  exact ⟨t :: us, vs, _, rfl, .simple (s := .push v) hgo hrest
    (by simp [Simple.op, Op.push, Op.Fits]) (.literal ht hrest.derives)⟩

/-- A compilation that ends well reads a phrase from a name on: a primitive word, a
    variable or a call. -/
theorem reads_identifier {name : String} (ih : ReadsPhrases closed n)
    (h : w.Offers (t :: ts) closed) (hlen : ts.length ≤ n)
    (ht : t.payload = .identifier name) (hnesting : w.nesting ≤ nestingLimit)
    (hrun : w.run = .ok ops c) : ∃ us vs p, t :: ts = us ++ vs ∧ w.Reads closed us vs p := by
  cases hp : Primitive.find? name with
  | some p =>
    obtain ⟨lexer, us, vs, rest, rfl, hgo, hrest⟩ :=
      ih.behind hlen (goesOn_primitive h ht hp) hnesting hrun
    exact ⟨t :: us, vs, _, rfl, .simple (s := .primitive p) hgo hrest (fits_of_find? hp)
      (.primitive ht hp hrest.derives)⟩
  | none =>
    cases hvar : variableFollows ts with
    | false =>
      have hc : ts = [] → closed := by
        rintro rfl
        by_contra hc
        obtain ⟨lexer, hl, hstep⟩ := step_cons h
        obtain ⟨e, lexer', hpeek⟩ := hl.peek_unclosed hc
        simp only [token, ht, identifier, hp, read, advance_lexer, hpeek] at hstep
        exact run_ne_ok hstep hrun
      obtain ⟨lexer, us, vs, rest, rfl, hgo, hrest⟩ :=
        ih.behind hlen (goesOn_call h ht hp hvar hc) hnesting hrun
      have hus : variableFollows us = false := by
        cases us with
        | nil => rfl
        | cons u us => exact hvar
      exact ⟨t :: us, vs, .call name rest, rfl, hrest.cons hgo (.call ht hp hus hrest.derives)
        hrest.depth ((Phrase.fits_call name rest).2 hrest.fits) rfl rfl⟩
    | true =>
      cases ts with
      | nil => cases hvar
      | cons u ts =>
        rw [List.length_cons] at hlen
        simp only [variableFollows, Token.isIdentifier, Bool.or_eq_true, decide_eq_true_eq] at hvar
        rcases hvar with hu | hu
        · obtain ⟨lexer, us, vs, rest, rfl, hgo, hrest⟩ :=
            ih.behind (by omega) (goesOn_variable h ht hp hu (.inl ⟨rfl, rfl⟩)) hnesting hrun
          exact ⟨t :: u :: us, vs, _, rfl, .simple (s := .store name) hgo hrest
            (by simp [Simple.op, Op.store, Op.Fits]) (.store ht hp hu hrest.derives)⟩
        · obtain ⟨lexer, us, vs, rest, rfl, hgo, hrest⟩ :=
            ih.behind (by omega) (goesOn_variable h ht hp hu (.inr ⟨rfl, rfl⟩)) hnesting hrun
          exact ⟨t :: u :: us, vs, _, rfl, .simple (s := .fetch name) hgo hrest
            (by simp [Simple.op, Op.fetch, Op.Fits]) (.fetch ht hp hu hrest.derives)⟩

/-- A compilation that ends well reads a phrase, up to a stop keyword of the
    innermost construct. -/
theorem readsPhrases (closed : Prop) (n : Nat) : ReadsPhrases closed n := by
  induction n with
  | zero =>
    intro w ts ops c hlen h hnesting _
    cases List.length_eq_zero_iff.1 (Nat.le_zero.1 hlen)
    exact ⟨[], [], .done, rfl, .nil h hnesting trivial⟩
  | succ n ih =>
    intro w ts ops c hlen h hnesting hrun
    cases ts with
    | nil => exact ⟨[], [], .done, rfl, .nil h hnesting trivial⟩
    | cons t ts =>
      replace hlen : ts.length ≤ n := Nat.le_of_succ_le_succ hlen
      cases ht : t.payload with
      | integer m =>
        exact reads_literal ih h hlen (v := .int m) (by simp [Token.value?, ht]) hnesting hrun
      | string text =>
        exact reads_literal ih h hlen (v := .str text) (by simp [Token.value?, ht]) hnesting hrun
      | identifier name => exact reads_identifier ih h hlen ht hnesting hrun
      | keyword k =>
        by_cases hk : k ∈ w.innerStops
        · exact ⟨[], t :: ts, .done, rfl, .nil h hnesting ⟨k, hk, ht⟩⟩
        · obtain ⟨lexer, -, hstep⟩ := step_cons h
          simp only [token, ht, advance_innerStops, hk, if_false] at hstep
          cases k with
          | colon => exact reads_colon ih h hlen ht hk hnesting hrun
          | if_ => exact reads_if ih h hlen ht hk hrun
          | _ => exact absurd hrun (run_ne_ok hstep)
      | endOfInput => exact absurd h.isEnd_head (by simp [Token.isEnd, ht])

end Work

-- ---------------------------------------------------------------------------
-- Source texts
-- ---------------------------------------------------------------------------

theorem wordsOfSource_eq_run (path source : String) :
    wordsOfSource path source =
      match Work.run { compiler := .ofSource path source, stops := [] } with
      | .ok body c => .ok (c.words.toList ++ [.ofBody Word.topLevel c.start body])
      | .error e _ => .error e := by
  simp only [wordsOfSource, Compiler.program, Compiler.compile, bind, EStateM.bind]
  cases Work.run { compiler := .ofSource path source, stops := [] } with
  | ok body c => rfl
  | error e c => rfl

/-- A text that is compiled spells a phrase within the limits, and its words are those
    of the phrase. -/
theorem spells_of_wordsOfSource {path source : String} {words : List Word}
    (h : wordsOfSource path source = .ok words) :
    ∃ p, Spells path source p ∧ p.depth ≤ nestingLimit ∧ p.Fits ∧ words = p.words (.start path) := by
  rw [wordsOfSource_eq_run] at h
  split at h
  · rename_i body c hrun
    cases h
    obtain ⟨us, vs, p, hts, hreads⟩ := Work.readsPhrases _ _ _ _ body c (Nat.le_refl _)
      (Lexer.offers_ofSource path source) (Nat.zero_le _) hrun
    obtain ⟨lexer, hl, hgo⟩ := hreads.goesOn
    -- nothing stops a text but its end
    have hvs : vs = [] := by
      cases vs with
      | nil => rfl
      | cons t vs => obtain ⟨k, hk, -⟩ := hreads.stop; cases hk
    subst hvs
    rw [List.append_nil] at hts
    subst hts
    obtain ⟨hclosed, -, hbody, hwords, hstart⟩ := Work.run_nil hl (hgo.symm.trans hrun)
    refine ⟨p, ⟨hclosed, hreads.derives⟩, ?_, hreads.fits, ?_⟩
    · simpa [Work.nesting] using hreads.depth
    · rw [hbody, hwords, hstart]
      simp [Work.advance, Compiler.ofSource, Phrase.words]
  · cases h

/-- A text that spells a phrase within the limits is compiled to the words of the phrase. -/
theorem wordsOfSource_of_spells {path source : String} {p : Phrase} (h : Spells path source p)
    (hdepth : p.depth ≤ nestingLimit) (hfits : p.Fits) :
    wordsOfSource path source = .ok (p.words (.start path)) := by
  obtain ⟨hclosed, hderives⟩ := h
  have hgoes : Work.GoesOn { compiler := .ofSource path source, stops := [] }
      (CommentsClosed 0 (Cursor.ofSource path source).lexemes.1) [] p.code p.definedWords := by
    refine Work.goesOn_of_derives hderives hclosed ?_ rfl ?_ ?_ hfits rfl
    · rw [List.append_nil]
      exact Lexer.offers_ofSource path source
    · simp [Work.StopsOutside, Work.innerStops]
    · simpa [Work.nesting] using hdepth
  obtain ⟨lexer, hl, hgo⟩ := hgoes
  obtain ⟨t, lexer', hnext, hend, -⟩ := hl.next_nil hclosed
  rw [wordsOfSource_eq_run, hgo]
  -- behind the phrase there is only the end of the text
  rw [Work.run_of_ended (r := .ok p.code
    (Work.advance { compiler := .ofSource path source, stops := [] } lexer' p.code
      p.definedWords).compiler)]
  · simp [Work.advance, Compiler.ofSource, Phrase.words]
  · simp [Work.step, Work.read, hnext, Work.token, hend, Work.endOfInput, Work.advance]

/-- A source text compiles exactly if its comments are closed and its tokens spell
    a phrase with at most 256 conditionals around any of its places, and no jump has
    a distance of more than 32 bits. Its words are then those of the phrase. -/
theorem wordsOfSource_eq_ok_iff_spells (path source : String) (words : List Word) :
    wordsOfSource path source = .ok words ↔
      ∃ p, Spells path source p ∧ p.depth ≤ 256 ∧
        (∀ w ∈ p.words (.start path), ∀ op ∈ w.ops,
          op.opcode = .jump ∨ op.opcode = .jumpIfNot → op.arg < UInt32.size) ∧
        words = p.words (.start path) := by
  have hlt (op : Op) : op.arg < UInt32.size ↔ op.arg ≤ distanceLimit := Nat.lt_succ_iff
  simp only [hlt]
  constructor
  · intro h
    obtain ⟨p, hspells, hdepth, hfits, hwords⟩ := spells_of_wordsOfSource h
    exact ⟨p, hspells, hdepth, (p.fits_iff_words (.start path)).1 hfits, hwords⟩
  · rintro ⟨p, hspells, hdepth, hfits, rfl⟩
    exact wordsOfSource_of_spells hspells hdepth ((p.fits_iff_words (.start path)).2 hfits)

end Forth
