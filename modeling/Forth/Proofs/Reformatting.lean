-- SUMMARY: Reformatting: texts that differ in blanks, line breaks and comments alone are the same program.
import Forth.Proofs.Safety
import Forth.Proofs.Staging
import Forth.Proofs.Tokenizing

/-!
# Reformatting

Places go with everything that is made of a text: tokens, open constructs, words,
blocks and errors. Nothing ever looks at a place, and comments are gone as soon as a
token is read. So reading, compiling, linking and running all commute with a function
that takes the places away, and the comments with them. Texts that become equal this way
make machines that become equal this way, or are refused with the same message.
-/

namespace Forth

-- ---------------------------------------------------------------------------
-- Texts
-- ---------------------------------------------------------------------------

def Lexeme.unplaced (x : Lexeme) : Lexeme :=
  { x with location := default }

def Token.unplaced (t : Token) : Token :=
  { t with location := default }

/-- The fault without the places of the tokens it names. -/
def SyntaxFault.unplaced : SyntaxFault → SyntaxFault
  | alreadyPending pending refused => alreadyPending pending.unplaced refused.unplaced
  | invalidName token => invalidName token.unplaced
  | fault => fault

def SyntaxError.unplaced (e : SyntaxError) : SyntaxError :=
  ⟨default, e.fault.unplaced⟩

/-- The message of a fault does not name a place. -/
theorem SyntaxFault.message_unplaced (fault : SyntaxFault) :
    fault.unplaced.message = fault.message := by
  cases fault <;> rfl

/-- A result without places, with the functions that take them from the state and from
    the value. -/
def unplacedResult {σ α : Type} (state : σ → σ) (value : α → α) :
    EStateM.Result SyntaxError σ α → EStateM.Result SyntaxError σ α
  | .ok a s => .ok (value a) (state s)
  | .error e s => .error e.unplaced (state s)

/-- The lexemes outside of comments, if `depth` comments are open in front, without their
    places. A comment that is never closed leaves the `(` that opens it. -/
def bareLexemes : Nat → List Lexeme → List Lexeme
  | 0, [] => []
  | _ + 1, [] => [⟨default, "("⟩]
  | depth, x :: xs =>
    if depth = 0 ∧ x.text ≠ "(" then
      x.unplaced :: bareLexemes (x.depthAfter depth) xs
    else
      bareLexemes (x.depthAfter depth) xs

/-- With all comments closed, the bare lexemes are those outside of comments, without
    their places. -/
theorem bareLexemes_of_closed {depth : Nat} {xs : List Lexeme} (h : CommentsClosed depth xs) :
    bareLexemes depth xs = (outsideComments depth xs).map Lexeme.unplaced := by
  induction xs generalizing depth with
  | nil =>
    obtain rfl : depth = 0 := h
    rfl
  | cons x xs ih =>
    have hrest := ih (show CommentsClosed (x.depthAfter depth) xs from h)
    rw [bareLexemes, outsideComments, hrest]
    split <;> rfl

namespace Lexer

/-- The lexer of the bare lexemes. -/
def bare (l : Lexer) : Lexer where
  lexemes := bareLexemes 0 l.lexemes
  finish := default
  pending := l.pending.map Token.unplaced

/-- Passing over a comment is the same as having taken it out. -/
theorem scan_bareLexemes (finish : Location) (c : Option Comment) (xs : List Lexeme) :
    scan default none (bareLexemes (Comment.depth c) xs) =
      unplacedResult (bareLexemes 0) Token.unplaced (scan finish c xs) := by
  fun_induction scan finish c xs with
  | case1 => rfl
  | case2 c =>
    -- The `(` that was left opens a comment at the end of the bare lexemes too.
    simp [bareLexemes, Comment.depth, scan, unplacedResult, SyntaxError.unplaced,
      SyntaxFault.unplaced]
  | case3 x xs hx ih =>
    rw [← ih]
    simp [bareLexemes, Comment.depth, Lexeme.depthAfter, hx]
  | case4 x xs hx =>
    simp [bareLexemes, Comment.depth, Lexeme.depthAfter, hx, scan, Lexeme.unplaced,
      unplacedResult, Lexeme.token, Token.unplaced]
  | case5 c x xs hx ih =>
    rw [← ih]
    simp [bareLexemes, Comment.depth, Lexeme.depthAfter, hx]
  | case6 c x xs hx hy hc ih =>
    rw [← ih]
    simp [bareLexemes, Comment.depth, Lexeme.depthAfter, hy, hc]
  | case7 c x xs hx hy inner hc ih =>
    rw [← ih]
    simp [bareLexemes, Comment.depth, Lexeme.depthAfter, hy, hc]
  | case8 c x xs hx hy ih =>
    rw [← ih]
    simp [bareLexemes, Comment.depth, Lexeme.depthAfter, hx, hy]

/-- A fresh read depends on the bare lexemes only, apart from its place. -/
theorem fresh_bare (l : Lexer) : fresh l.bare = unplacedResult bare Token.unplaced (fresh l) := by
  have hscan : scan l.bare.finish none l.bare.lexemes =
      unplacedResult (bareLexemes 0) Token.unplaced (scan l.finish none l.lexemes) :=
    scan_bareLexemes l.finish none l.lexemes
  unfold fresh
  rw [hscan]
  cases scan l.finish none l.lexemes with
  | ok t rest => rfl
  | error e rest => rfl

theorem next_bare (l : Lexer) : next l.bare = unplacedResult bare Token.unplaced (next l) := by
  cases hpending : l.pending with
  | none => simpa [next, bare, hpending] using fresh_bare l
  | some t => simp [next, bare, hpending, unplacedResult]

theorem peek_bare (l : Lexer) : peek l.bare = unplacedResult bare Token.unplaced (peek l) := by
  cases hpending : l.pending with
  | none =>
    have hbare : l.bare.pending = none := by simp [bare, hpending]
    simp only [peek, hpending, hbare, fresh_bare]
    cases fresh l with
    | ok t l' => rfl
    | error e l' => rfl
  | some t => simp [peek, bare, hpending, unplacedResult]

theorem unread_bare (l : Lexer) (t : Token) :
    unread t.unplaced l.bare = unplacedResult bare id (unread t l) := by
  cases hpending : l.pending with
  | none => simp [unread, bare, hpending, unplacedResult]
  | some p =>
    simp [unread, bare, hpending, unplacedResult, SyntaxError.unplaced, SyntaxFault.unplaced,
      Token.unplaced]

end Lexer

-- ---------------------------------------------------------------------------
-- Compilations
-- ---------------------------------------------------------------------------

def Word.unplaced (w : Word) : Word :=
  { w with location := default }

def Frame.unplaced : Frame → Frame
  | definition _ outer name => definition default outer name
  | branch _ outer => branch default outer
  | alternative _ outer yes => alternative default outer yes

def Compiler.bare (c : Compiler) : Compiler where
  lexer := c.lexer.bare
  start := default
  defining := c.defining
  words := c.words.map Word.unplaced

def Work.bare (w : Work) : Work where
  compiler := w.compiler.bare
  stops := w.stops
  frames := w.frames.map Frame.unplaced
  ops := w.ops

def Progress.bare : Progress → Progress
  | more w => more w.bare
  | ended r => ended (unplacedResult Compiler.bare id r)

namespace Work

variable (w : Work)

theorem innerStops_bare : w.bare.innerStops = w.innerStops := by
  obtain ⟨compiler, stops, _ | ⟨_ | _ | _, _⟩, ops⟩ := w <;> rfl

theorem defining_bare : w.bare.compiler.defining = w.compiler.defining := rfl

theorem nesting_bare : w.bare.nesting = w.nesting := by
  have hframe : Frame.isConditional ∘ Frame.unplaced = Frame.isConditional := by
    funext f
    cases f <;> rfl
  rw [nesting, bare, List.countP_map, hframe]
  rfl

/-- Reading commutes, if what is done with the result does. -/
theorem read_bare {α : Type} {f f' : EStateM SyntaxError Lexer α} {value : α → α}
    {k k' : α → Work → Progress} (hread : ∀ l, f' l.bare = unplacedResult Lexer.bare value (f l))
    (hbehind : ∀ a w, k' (value a) w.bare = (k a w).bare) :
    w.bare.read f' k' = (w.read f k).bare := by
  have hlexer : f' w.bare.compiler.lexer =
      unplacedResult Lexer.bare value (f w.compiler.lexer) := hread _
  unfold read
  rw [hlexer]
  cases f w.compiler.lexer with
  | ok a lexer => exact hbehind a { w with compiler := { w.compiler with lexer } }
  | error e lexer => rfl

theorem identifier_bare (name : String) : w.bare.identifier name = (w.identifier name).bare := by
  unfold identifier
  split
  · rfl
  · apply read_bare w Lexer.peek_bare
    intro t w
    have hmark (mark : String) : t.unplaced.isIdentifier mark = t.isIdentifier mark := rfl
    rw [hmark, hmark]
    split
    · exact read_bare w Lexer.next_bare fun _ _ => rfl
    · split
      · exact read_bare w Lexer.next_bare fun _ _ => rfl
      · rfl

theorem openDefinition_bare (l : Location) :
    w.bare.openDefinition default = (w.openDefinition l).bare := by
  unfold openDefinition
  rw [defining_bare]
  split
  · rfl
  · apply read_bare w Lexer.next_bare
    intro t w
    obtain ⟨_, _ | _ | _ | _ | _⟩ := t <;> rfl

theorem openConditional_bare (l : Location) :
    w.bare.openConditional default = (w.openConditional l).bare := by
  unfold openConditional
  rw [nesting_bare]
  split <;> rfl

theorem closeConditional_bare (l : Location) (frames : List Frame) (outer : Array Op)
    (code : Option (Array Op)) :
    w.bare.closeConditional default (frames.map Frame.unplaced) outer code =
      (w.closeConditional l frames outer code).bare := by
  cases code <;> rfl

theorem keyword_bare (l : Location) (k : Keyword) :
    w.bare.keyword default k = (w.keyword l k).bare := by
  cases k with
  | colon => exact openDefinition_bare w l
  | if_ => exact openConditional_bare w l
  | semicolon =>
    unfold keyword
    rw [defining_bare]
    dsimp only
    split <;> rfl
  | else_ | then_ | closeParen => rfl

theorem stop_bare (t : Token) (k : Keyword) : w.bare.stop t.unplaced k = (w.stop t k).bare := by
  obtain ⟨compiler, stops, frames, ops⟩ := w
  cases frames with
  | nil =>
    show Work.read _ (Lexer.unread t.unplaced) (fun _ w => .ended (.ok w.ops.toList w.compiler)) =
      (Work.read _ (Lexer.unread t) fun _ w => .ended (.ok w.ops.toList w.compiler)).bare
    exact read_bare _ (Lexer.unread_bare · t) fun _ _ => rfl
  | cons f frames =>
    cases f with
    | definition l outer name =>
      simp [stop, Progress.bare, bare, Compiler.bare, Frame.unplaced, Word.unplaced, Word.ofBody]
    | branch l outer =>
      by_cases hk : k = .else_
      · simp only [stop, if_pos hk]
        rfl
      · simp only [stop, if_neg hk]
        exact closeConditional_bare ..
    | alternative l outer yes => exact closeConditional_bare ..

theorem endOfInput_bare : w.bare.endOfInput = w.endOfInput.bare := by
  obtain ⟨compiler, stops, _ | ⟨_ | _ | _, _⟩, ops⟩ := w <;> rfl

/-- What a token makes of a compilation depends on no place. -/
theorem token_bare (t : Token) : w.bare.token t.unplaced = (w.token t).bare := by
  obtain ⟨l, payload⟩ := t
  cases payload with
  | integer n | string s => rfl
  | identifier name => exact identifier_bare w name
  | keyword k =>
    simp only [token, Token.unplaced, innerStops_bare]
    split
    · exact stop_bare w ⟨l, .keyword k⟩ k
    · exact keyword_bare w l k
  | endOfInput => exact endOfInput_bare w

/-- A token has the same effect on the compilation of the bare text. -/
theorem step_bare : w.bare.step = w.step.bare :=
  read_bare w Lexer.next_bare fun t w => token_bare w t

/-- The bare text has the same code, up to places. -/
theorem run_bare : w.bare.run = unplacedResult Compiler.bare id w.run := by
  induction hn : w.remaining using Nat.strongRecOn generalizing w with
  | _ n ih =>
    subst hn
    cases hstep : w.step with
    | ended r =>
      have hbare : w.bare.step = .ended (unplacedResult Compiler.bare id r) := by
        rw [step_bare, hstep]
        rfl
      rw [run_of_ended hstep, run_of_ended hbare]
    | more w' =>
      have hbare : w.bare.step = .more w'.bare := by
        rw [step_bare, hstep]
        rfl
      rw [run_of_more hstep, run_of_more hbare]
      exact ih _ (remaining_step_lt hstep) w' rfl

end Work

def unplacedWords (r : Except SyntaxError (List Word)) : Except SyntaxError (List Word) :=
  (r.map (List.map Word.unplaced)).mapError SyntaxError.unplaced

/-- The words of a text are those of its bare lexemes, apart from their places. -/
theorem unplacedWords_wordsOfSource (path source : String) :
    unplacedWords (wordsOfSource path source) =
      match Work.run { compiler := (Compiler.ofSource path source).bare, stops := [] } with
      | .ok body c => .ok (c.words.toList ++ [.ofBody Word.topLevel c.start body])
      | .error e _ => .error e := by
  have hrun := Work.run_bare { compiler := .ofSource path source, stops := [] }
  simp only [Work.bare, List.map_nil] at hrun
  rw [wordsOfSource_eq_run, hrun]
  cases Work.run { compiler := .ofSource path source, stops := [] } with
  | ok body c =>
    simp [unplacedWords, unplacedResult, Compiler.bare, Except.map, Except.mapError,
      Word.unplaced, Word.ofBody]
  | error e c => rfl

-- ---------------------------------------------------------------------------
-- Linking
-- ---------------------------------------------------------------------------

def Entry.unplaced (e : Entry) : Entry :=
  { e with location := default }

def Dictionary.unplaced (d : Dictionary) : Dictionary :=
  ⟨d.entries.map Entry.unplaced⟩

def Image.unplaced (image : Image) : Image :=
  { image with dictionary := image.dictionary.unplaced }

def LinkError.unplaced (e : LinkError) : LinkError :=
  { e with location := e.location.map fun _ => default }

namespace Dictionary

variable (d : Dictionary)

theorem nextAddress_unplaced : d.unplaced.nextAddress = d.nextAddress := by
  unfold nextAddress unplaced
  cases d.entries <;> rfl

/-- The address of a name does not depend on places. -/
theorem address?_unplaced (name : String) : d.unplaced.address? name = d.address? name := by
  rw [address?, find?, unplaced, List.find?_map, Option.map_map]
  rfl

theorem entryAt?_unplaced (address : Nat) :
    d.unplaced.entryAt? address = (d.entryAt? address).map Entry.unplaced := by
  rw [entryAt?, entryAt?, unplaced, List.find?_map, Option.filter_map]
  rfl

end Dictionary

namespace Image

/-- A result of linking without places, with the function that takes them from the value. -/
def unplacedLink {α : Type} (value : α → α) (r : Except LinkError α) : Except LinkError α :=
  (r.map value).mapError LinkError.unplaced

/-- Words are placed at the same addresses, wherever they were defined. -/
theorem place_unplaced (d : Dictionary) (words : List Word) :
    place d.unplaced (words.map Word.unplaced) = (place d words).unplaced := by
  induction words generalizing d with
  | nil => rfl
  | cons w words ih =>
    have hdefine : d.unplaced.define w.unplaced.name w.unplaced.location w.unplaced.ops.length =
        (d.define w.name w.location w.ops.length).unplaced := by
      rw [Dictionary.define, Dictionary.nextAddress_unplaced]
      rfl
    rw [place, List.map_cons, List.foldl_cons, hdefine]
    exact ih _

variable (image : Image)

theorem resolve_unplaced (word : Word) (address : Nat) (op : Op) :
    image.unplaced.resolve word.unplaced address op =
      unplacedLink id (image.resolve word address op) := by
  obtain ⟨opcode, arg, datum⟩ := op
  cases opcode with
  | call =>
    cases datum with
    | str name =>
      have hname : image.unplaced.dictionary.address? name = image.dictionary.address? name :=
        image.dictionary.address?_unplaced name
      simp only [resolve, hname]
      cases image.dictionary.address? name <;> rfl
    | void | int n => rfl
  | _ => rfl

/-- Emitting an op depends on no place. -/
theorem emit_unplaced (word : Word) (address : Nat) (op : Op) :
    image.unplaced.emit word.unplaced address op =
      unplacedLink unplaced (image.emit word address op) := by
  simp only [emit, resolve_unplaced]
  cases image.resolve word address op with
  | error e => rfl
  | ok argument =>
    simp only [unplacedLink, Except.map, Except.mapError, bind, Except.bind, id]
    split
    · split <;> rfl
    · rfl

theorem foldlM_emit_unplaced (sites : List ((Word × Op) × Nat)) :
    (sites.map fun ((word, op), address) => ((word.unplaced, op), address)).foldlM
        (fun image ((word, op), address) => image.emit word address op) image.unplaced =
      unplacedLink unplaced
        (sites.foldlM (fun image ((word, op), address) => image.emit word address op) image) := by
  induction sites generalizing image with
  | nil => rfl
  | cons site sites ih =>
    obtain ⟨⟨word, op⟩, address⟩ := site
    simp only [List.map_cons, List.foldlM_cons, emit_unplaced]
    cases image.emit word address op with
    | error e => rfl
    | ok image' => exact ih image'

theorem sites_unplaced (base : Nat) (words : List Word) :
    sites base (words.map Word.unplaced) =
      (sites base words).map fun ((word, op), address) => ((word.unplaced, op), address) := by
  have hops : (words.map Word.unplaced).flatMap (fun w => w.ops.map (w, ·)) =
      (words.flatMap fun w => w.ops.map (w, ·)).map fun (word, op) => (word.unplaced, op) := by
    simp [List.flatMap_map, List.map_flatMap, Function.comp_def, Word.unplaced]
  rw [sites, sites, hops, List.zipIdx_map]
  rfl

theorem find?_topLevel_unplaced (d : Dictionary) (words : List Word) :
    (d.unplaced.entries.take (words.map Word.unplaced).length).find? (·.name = Word.topLevel) =
      ((d.entries.take words.length).find? (·.name = Word.topLevel)).map Entry.unplaced := by
  rw [Dictionary.unplaced, List.length_map, ← List.map_take, List.find?_map]
  rfl

/-- Linking looks at the names and sizes of words and at their ops. -/
theorem link_unplaced (words : List Word) :
    image.unplaced.link (words.map Word.unplaced) =
      unplacedLink (fun (image, start) => (image.unplaced, start)) (image.link words) := by
  have hplace : place image.unplaced.dictionary (words.map Word.unplaced) =
      (place image.dictionary words).unplaced := place_unplaced ..
  have hnext : image.unplaced.dictionary.nextAddress = image.dictionary.nextAddress :=
    image.dictionary.nextAddress_unplaced
  have hplaced : { image.unplaced with dictionary := (place image.dictionary words).unplaced } =
      { image with dictionary := place image.dictionary words }.unplaced := rfl
  simp only [link, hplace, hnext, hplaced, sites_unplaced, foldlM_emit_unplaced,
    find?_topLevel_unplaced]
  cases (sites image.dictionary.nextAddress words).foldlM
      (fun image ((word, op), address) => image.emit word address op)
      { image with dictionary := place image.dictionary words } with
  | error e => rfl
  | ok linked =>
    simp only [bind, Except.bind]
    cases ((place image.dictionary words).entries.take words.length).find?
        (·.name = Word.topLevel) with
    | none => rfl
    | some entry => rfl

end Image

-- ---------------------------------------------------------------------------
-- Machines
-- ---------------------------------------------------------------------------

def Diagnostic.unplaced (d : Diagnostic) : Diagnostic :=
  { d with location := d.location.map fun _ => default }

def LoadError.unplaced : LoadError → LoadError
  | source e => source e.unplaced
  | link e => link e.unplaced

/-- The message of an error does not depend on places. -/
theorem LoadError.message_unplaced (e : LoadError) :
    e.unplaced.diagnostic.message = e.diagnostic.message := by
  cases e with
  | source e => exact e.fault.message_unplaced
  | link e => rfl

namespace Machine

def unplaced (m : Machine) : Machine :=
  { m with image := m.image.unplaced }

variable (m : Machine)

theorem follow_unplaced (flow : Flow) :
    m.unplaced.follow flow = ((m.follow flow).1, (m.follow flow).2.unplaced) := by
  obtain ⟨image, ip, calls, state⟩ := m
  cases flow with
  | leave => cases calls <;> rfl
  | _ => rfl

/-- An instruction reads the code and the constants. -/
theorem step_unplaced : m.unplaced.step = (m.step.1, m.step.2.unplaced) := by
  have hexecute : m.unplaced.image.executeAt m.unplaced.ip m.unplaced.state =
      m.image.executeAt m.ip m.state := rfl
  unfold step
  rw [hexecute]
  cases m.image.executeAt m.ip m.state with
  | ok flow state => exact follow_unplaced { m with state } flow
  | error fault state => rfl

/-- A run depends on no place. -/
theorem runFor_unplaced (n : Nat) :
    m.unplaced.runFor n = ((m.runFor n).1, (m.runFor n).2.unplaced) := by
  induction n generalizing m with
  | zero => rfl
  | succ n ih =>
    simp only [runFor, step_unplaced]
    rcases m.step with ⟨_ | _ | _, m'⟩
    · exact ih m'
    · rfl
    · rfl

/-- A trace has the names of words and no places. -/
theorem report_unplaced (fault : Fault) :
    m.unplaced.report fault = (m.report fault).unplaced := by
  have hentry (address : Nat) : m.unplaced.image.dictionary.entryAt? address =
      (m.image.dictionary.entryAt? address).map Entry.unplaced :=
    m.image.dictionary.entryAt?_unplaced address
  have hcall : m.unplaced.callAt = m.callAt := by
    funext address
    simp only [callAt, Image.wordName?, hentry, Option.map_map]
    rfl
  have htrace : m.unplaced.trace = m.trace := by
    simp only [trace, hcall]
    rfl
  have hlocation : m.unplaced.currentWord?.map (·.location) =
      (m.currentWord?.map (·.location)).map fun _ => default := by
    simp only [currentWord?]
    rw [hentry m.unplaced.ip]
    simp [Option.map_map, Function.comp_def, unplaced, Entry.unplaced]
  cases fault with
  | writeFailed => rfl
  | _ => simp only [report, hlocation, htrace, Diagnostic.unplaced]

def unplacedLoad (r : Except LoadError Machine) : Except LoadError Machine :=
  (r.map unplaced).mapError LoadError.unplaced

/-- A load depends on no place but through the words of its text. -/
theorem unplacedLoad_load (path source : String) :
    unplacedLoad (m.load path source) =
      match unplacedWords (wordsOfSource path source) with
      | .error e => .error (.source e)
      | .ok words =>
        match m.image.unplaced.link words with
        | .error e => .error (.link e)
        | .ok (image, ip) => .ok { m with image, ip } := by
  unfold load
  cases wordsOfSource path source with
  | error e => rfl
  | ok words =>
    have hwords : unplacedWords (.ok words) = .ok (words.map Word.unplaced) := rfl
    simp only [hwords, Image.link_unplaced]
    cases m.image.link words with
    | error e => rfl
    | ok linked => rfl

-- ---------------------------------------------------------------------------
-- Reformatted texts
-- ---------------------------------------------------------------------------

/-- The machines differ in the places of definitions at most. -/
structure Alike (m m' : Machine) : Prop where
  image : m.image.Agrees m'.image
  ip : m.ip = m'.ip
  calls : m.calls = m'.calls
  state : m.state = m'.state

variable {m m' : Machine}

/-- Machines that are the same without places differ in places at most. -/
theorem alike_of_unplaced (h : m.unplaced = m'.unplaced) : m.Alike m' := by
  have hblocks (m : Machine) :
      m.image.dictionary.blocks.map (fun e => (e.name, e.address, e.size)) =
        m.unplaced.image.dictionary.blocks.map (fun e => (e.name, e.address, e.size)) := by
    simp [unplaced, Image.unplaced, Dictionary.unplaced, Dictionary.blocks, Entry.unplaced,
      Function.comp_def]
  have hagrees : m.image.Agrees m'.image := {
    code := congrArg (·.image.code) h
    constants := congrArg (·.image.constants) h
    blocks := by rw [hblocks m, hblocks m', h] }
  exact {
    image := hagrees
    ip := congrArg (·.ip) h
    calls := congrArg (·.calls) h
    state := congrArg (·.state) h }

/-- Machines that are equal without their places keep in step. -/
theorem runFor_of_unplaced (h : m.unplaced = m'.unplaced) (n : Nat) :
    (m.runFor n).1 = (m'.runFor n).1 ∧ (m.runFor n).2.unplaced = (m'.runFor n).2.unplaced := by
  have hrun := m.runFor_unplaced n
  rw [h, runFor_unplaced] at hrun
  exact ⟨(congrArg Prod.fst hrun).symm, (congrArg Prod.snd hrun).symm⟩

end Machine

/-- Texts with the same lexemes outside of comments are compiled alike. -/
theorem Compiler.bare_ofSource_congr {path path' source source' : String}
    (hclosed : CommentsClosed 0 (Text.lexemes path source.toList))
    (hclosed' : CommentsClosed 0 (Text.lexemes path' source'.toList))
    (htexts : (outsideComments 0 (Text.lexemes path source.toList)).map (·.text) =
      (outsideComments 0 (Text.lexemes path' source'.toList)).map (·.text)) :
    (ofSource path source).bare = (ofSource path' source').bare := by
  have hunplaced (xs : List Lexeme) :
      xs.map Lexeme.unplaced = (xs.map (·.text)).map (Lexeme.mk default) := by
    rw [List.map_map]
    rfl
  have hlexemes : bareLexemes 0 (Text.lexemes path source.toList) =
      bareLexemes 0 (Text.lexemes path' source'.toList) := by
    rw [bareLexemes_of_closed hclosed, bareLexemes_of_closed hclosed', hunplaced, htexts,
      hunplaced]
  simp only [bare, ofSource, Lexer.ofSource, Lexer.bare, Cursor.lexemes_ofSource, hlexemes]

namespace Machine

variable {path path' source source' : String}

/-- Blanks, line breaks and comments do not matter. Two texts with closed comments and the
    same lexemes outside of them are refused with the same message, or they make machines
    that differ in places at most and go on to do so, whatever they write to. -/
theorem load_reformatted (m : Machine)
    (hclosed : CommentsClosed 0 (Text.lexemes path source.toList))
    (hclosed' : CommentsClosed 0 (Text.lexemes path' source'.toList))
    (htexts : (outsideComments 0 (Text.lexemes path source.toList)).map (·.text) =
      (outsideComments 0 (Text.lexemes path' source'.toList)).map (·.text)) :
    (∃ e e', loadInPlace path source m = .error e m ∧ loadInPlace path' source' m = .error e' m ∧
      e.diagnostic.message = e'.diagnostic.message) ∨
    (∃ m₁ m₂, loadInPlace path source m = .ok () m₁ ∧ loadInPlace path' source' m = .ok () m₂ ∧
      m₁.Alike m₂ ∧
      ∀ output n, ((m₁.writingTo output).runFor n).1 = ((m₂.writingTo output).runFor n).1 ∧
        ((m₁.writingTo output).runFor n).2.Alike ((m₂.writingTo output).runFor n).2 ∧
        ∀ fault, (((m₁.writingTo output).runFor n).2.report fault).unplaced =
          (((m₂.writingTo output).runFor n).2.report fault).unplaced) := by
  have hload : unplacedLoad (m.load path source) = unplacedLoad (m.load path' source') := by
    rw [unplacedLoad_load, unplacedLoad_load, unplacedWords_wordsOfSource,
      unplacedWords_wordsOfSource, Compiler.bare_ofSource_congr hclosed hclosed' htexts]
  simp only [loadInPlace_eq]
  cases h₁ : m.load path source with
  | error e =>
    cases h₂ : m.load path' source' with
    | error e' =>
      rw [h₁, h₂] at hload
      refine .inl ⟨e, e', rfl, rfl, ?_⟩
      rw [← e.message_unplaced, Except.error.inj hload, e'.message_unplaced]
    | ok m₂ =>
      rw [h₁, h₂] at hload
      cases hload
  | ok m₁ =>
    cases h₂ : m.load path' source' with
    | error e' =>
      rw [h₁, h₂] at hload
      cases hload
    | ok m₂ =>
      rw [h₁, h₂] at hload
      have hunplaced : m₁.unplaced = m₂.unplaced := Except.ok.inj hload
      refine .inr ⟨m₁, m₂, rfl, rfl, alike_of_unplaced hunplaced, ?_⟩
      intro output n
      have hwriting : (m₁.writingTo output).unplaced = (m₂.writingTo output).unplaced :=
        congrArg (·.writingTo output) hunplaced
      obtain ⟨hstatus, hrun⟩ := runFor_of_unplaced hwriting n
      refine ⟨hstatus, alike_of_unplaced hrun, ?_⟩
      intro fault
      rw [← report_unplaced, ← report_unplaced, hrun]

/-- Comments between a colon and the name and between a name and its mark, in a text with
    other line breaks. -/
theorem load_reformatted_inside_constructs :
    ∃ m₁ m₂ : Machine,
      loadInPlace "a" ": f 1 + ; 4 x ! x @ f ." {} = .ok () m₁ ∧
      loadInPlace "b" ": ( a ( b ) )\nf 1 + ;\n4 x ( c ) !\tx @ f ." {} =
        .ok () m₂ ∧
      m₁.image ≠ m₂.image ∧ m₁.Alike m₂ ∧
      ((m₁.writingTo {}).runFor 20).1 = .halted ∧ ((m₂.writingTo {}).runFor 20).1 = .halted ∧
      ((m₂.writingTo {}).runFor 20).2.state.output.written.data = #[53] := by
  let first : Machine := ({} : Machine).tryLoad ("a", ": f 1 + ; 4 x ! x @ f .")
  let second : Machine := ({} : Machine).tryLoad
    ("b", ": ( a ( b ) )\nf 1 + ;\n4 x ( c ) !\tx @ f .")
  have hloads : (({} : Machine).load "a" ": f 1 + ; 4 x ! x @ f .").isOk = true ∧
      (({} : Machine).load "b"
        ": ( a ( b ) )\nf 1 + ;\n4 x ( c ) !\tx @ f .").isOk = true ∧
      first.image ≠ second.image ∧ ((first.writingTo {}).runFor 20).1 = .halted ∧
      ((first.writingTo {}).runFor 20).2.state.output.written.data = #[53] := by
    decide +kernel
  obtain ⟨hok, hok', hne, hhalted, hwritten⟩ := hloads
  have hfirst := load_eq_ok_tryLoad hok
  have hsecond := load_eq_ok_tryLoad hok'
  obtain ⟨e, _, herror, -⟩ | ⟨m₁, m₂, hload₁, hload₂, halike, hrun⟩ :=
    @load_reformatted "a" "b" ": f 1 + ; 4 x ! x @ f ."
      ": ( a ( b ) )\nf 1 + ;\n4 x ( c ) !\tx @ f ." {}
      (by decide +kernel) (by decide +kernel) (by decide +kernel)
  · cases hfirst.symm.trans (load_of_loadInPlace_error herror).1
  · obtain rfl : first = m₁ := Except.ok.inj (hfirst.symm.trans (load_of_loadInPlace_ok hload₁))
    obtain rfl : second = m₂ := Except.ok.inj (hsecond.symm.trans (load_of_loadInPlace_ok hload₂))
    obtain ⟨hstatus, hsame, -⟩ := hrun {} 20
    exact ⟨first, second, hload₁, hload₂, hne, halike, hhalted, hstatus.symm.trans hhalted,
      hsame.state ▸ hwritten⟩

end Machine

end Forth
