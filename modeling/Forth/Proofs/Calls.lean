-- SUMMARY: Calls of the compiler: what each of them keeps, and what a call that fails leaves behind.
import Forth.Proofs.Descent
import Forth.Proofs.Layout

/-!
# Calls of the compiler

A compiler can be called again and again, also behind a fault. Everything that one
token can do to a compilation is listed once. From that list follows what all
tokens of a call keep: words are only added, their code leads forward, and a
definition is open just if one was open in front of the call or if the call has
opened one. So a definition that a fault leaves open stays open, and no word is
finished any more.
-/

namespace Forth

-- ---------------------------------------------------------------------------
-- Faults of reads
-- ---------------------------------------------------------------------------

namespace Lexer

variable {l l' : Lexer} {e : SyntaxError}

/-- The only fault of a scan is a comment that is never closed. -/
theorem fault_scan {finish : Location} {c : Option Comment} {xs rest : List Lexeme}
    (h : scan finish c xs = .error e rest) : e.fault = .unclosedComment := by
  fun_induction scan finish c xs with
  | case1 => cases h
  | case2 => cases h; rfl
  | case3 x xs _ ih => exact ih h
  | case4 x xs => cases h
  | case5 c x xs _ ih => exact ih h
  | case6 c x xs _ _ _ ih => exact ih h
  | case7 c x xs _ _ inner _ ih => exact ih h
  | case8 c x xs _ _ ih => exact ih h

theorem fault_fresh (h : fresh l = .error e l') : e.fault = .unclosedComment := by
  unfold fresh at h
  split at h
  · cases h
  · next hs => cases h; exact fault_scan hs

theorem fault_next (h : next l = .error e l') : e.fault = .unclosedComment := by
  unfold next at h
  split at h
  · cases h
  · exact fault_fresh h

theorem fault_peek (h : peek l = .error e l') : e.fault = .unclosedComment := by
  unfold peek at h
  split at h
  · cases h
  · split at h
    · cases h
    · next hf => cases h; exact fault_fresh hf

end Lexer

-- ---------------------------------------------------------------------------
-- What one token does
-- ---------------------------------------------------------------------------

/-- The code that a frame keeps leads forward. -/
def Frame.LeadsForward : Frame → Prop
  | definition _ outer _ => Forward outer.toList
  | branch _ outer => Forward outer.toList
  | alternative _ outer yes => Forward outer.toList ∧ Forward yes.toList

namespace Work

def reading (w : Work) (lexer : Lexer) : Work :=
  { w with compiler.lexer := lexer }

/-- What a token makes of a compilation that it does not end. -/
inductive Moves (w : Work) : Work → Prop where
  | emit {op : Op} : (∀ room, op.Sound room) → Moves w { w with ops := w.ops.push op }
  | openDefinition (l : Location) (name : String) : w.compiler.defining = false →
      Moves w { w with
        compiler.defining := true
        frames := .definition l w.ops name :: w.frames
        ops := #[] }
  | openConditional (l : Location) :
      Moves w { w with frames := .branch l w.ops :: w.frames, ops := #[] }
  | closeDefinition {l : Location} {outer : Array Op} {name : String} {frames : List Frame} :
      w.frames = .definition l outer name :: frames →
      Moves w { w with
        compiler.defining := false
        compiler.words := w.compiler.words.push (.ofBody name l w.ops.toList)
        frames
        ops := outer }
  | alternative {l : Location} {outer : Array Op} {frames : List Frame} :
      w.frames = .branch l outer :: frames →
      Moves w { w with frames := .alternative l outer w.ops :: frames, ops := #[] }
  | closeBranch {l : Location} {outer code : Array Op} {frames : List Frame} :
      w.frames = .branch l outer :: frames → Op.ifThen? w.ops = some code →
      Moves w { w with frames, ops := outer ++ code }
  | closeAlternative {l : Location} {outer yes code : Array Op} {frames : List Frame} :
      w.frames = .alternative l outer yes :: frames → Op.ifThenElse? yes w.ops = some code →
      Moves w { w with frames, ops := outer ++ code }

/-- How a token ends a compilation: outside of all constructs, or with a fault that is not
    the refusal of a token that is put back. -/
inductive Ends (w : Work) : Compiled → Prop where
  | ok : w.frames = [] → Ends w (.ok w.ops.toList w.compiler)
  | error {e : SyntaxError} : (∀ p t, e.fault ≠ .alreadyPending p t) →
      Ends w (.error e w.compiler)

/-- However a compilation ends, it leaves behind the compiler that it has. -/
theorem Ends.leftBy_eq {w : Work} {r : Compiled} (h : w.Ends r) : leftBy r = w.compiler := by
  cases h <;> rfl

/-- What a token makes of a compilation, whatever it leaves to read. -/
inductive Takes (w : Work) : Progress → Prop where
  | more (lexer : Lexer) {w' : Work} : (w.reading lexer).Moves w' → Takes w (.more w')
  | ended (lexer : Lexer) {r : Compiled} : (w.reading lexer).Ends r → Takes w (.ended r)

variable {w w' : Work}

theorem Moves.takes (h : w.Moves w') : w.Takes (.more w') :=
  .more w.compiler.lexer h

theorem takes_emit {op : Op} (h : ∀ room, op.Sound room) : w.Takes (w.emit op) :=
  (Moves.emit h).takes

theorem takes_fail (l : Location) {fault : SyntaxFault}
    (h : ∀ p t, fault ≠ .alreadyPending p t) : w.Takes (w.fail l fault) :=
  .ended w.compiler.lexer (.error h)

/-- What was read in front of it makes no difference to what a token makes of a
    compilation. -/
theorem Takes.of_reading {lexer : Lexer} {p : Progress} (h : (w.reading lexer).Takes p) :
    w.Takes p := by
  cases h with
  | more lexer' h => exact .more lexer' h
  | ended lexer' h => exact .ended lexer' h

/-- A compilation may read before it reacts. The read may fail in an unclosed comment
    only. -/
theorem takes_read {α : Type} {f : EStateM SyntaxError Lexer α} {k : α → Work → Progress}
    (hk : ∀ a lexer, f w.compiler.lexer = .ok a lexer →
      (w.reading lexer).Takes (k a (w.reading lexer)))
    (hf : ∀ e lexer, f w.compiler.lexer = .error e lexer → e.fault = .unclosedComment) :
    w.Takes (w.read f k) := by
  unfold read
  split
  · next a lexer h => exact (hk a lexer h).of_reading
  · next e lexer h =>
    refine .ended lexer (.error fun p t hfault => ?_)
    cases (hf e lexer h).symm.trans hfault

theorem takes_next {k : Token → Work → Progress}
    (hk : ∀ t lexer, Lexer.next w.compiler.lexer = .ok t lexer →
      (w.reading lexer).Takes (k t (w.reading lexer))) : w.Takes (w.read Lexer.next k) :=
  takes_read hk fun _ _ => Lexer.fault_next

theorem takes_identifier (name : String) : w.Takes (w.identifier name) := by
  unfold identifier
  split
  · next p hp => exact takes_emit (Primitive.sound_of_find? hp)
  · refine takes_read (fun t lexer _ => ?_) fun _ _ => Lexer.fault_peek
    split
    · exact takes_next fun u lexer' _ => takes_emit fun room => ⟨name, rfl⟩
    · split
      · exact takes_next fun u lexer' _ => takes_emit fun room => ⟨name, rfl⟩
      · exact takes_emit fun room => ⟨name, rfl⟩

theorem takes_openDefinition (l : Location) : w.Takes (w.openDefinition l) := by
  unfold openDefinition
  split
  · exact takes_fail l fun p t => SyntaxFault.noConfusion
  · next hdefining =>
    refine takes_next fun t lexer _ => ?_
    dsimp only
    split
    · next name _ =>
      have hclosed : (w.reading lexer).compiler.defining = false := Bool.eq_false_iff.2 hdefining
      exact (Moves.openDefinition l name hclosed).takes
    · exact takes_fail _ fun p t => SyntaxFault.noConfusion

theorem takes_openConditional (l : Location) : w.Takes (w.openConditional l) := by
  unfold openConditional
  split
  · exact (Moves.openConditional l).takes
  · exact takes_fail l fun p t => SyntaxFault.noConfusion

theorem takes_keyword (l : Location) (k : Keyword) : w.Takes (w.keyword l k) := by
  cases k with
  | colon => exact takes_openDefinition l
  | if_ => exact takes_openConditional l
  | semicolon =>
    refine takes_fail l fun p t => ?_
    split <;> exact SyntaxFault.noConfusion
  | else_ | then_ | closeParen => exact takes_fail l fun p t => SyntaxFault.noConfusion

theorem takes_closeConditional {l : Location} {frames : List Frame} {outer : Array Op}
    {code : Option (Array Op)}
    (h : ∀ ops, code = some ops → w.Moves { w with frames, ops := outer ++ ops }) :
    w.Takes (w.closeConditional l frames outer code) := by
  cases code with
  | some ops => exact (h ops rfl).takes
  | none => exact takes_fail l fun p t => SyntaxFault.noConfusion

/-- A stop closes the innermost construct or ends the compilation. It is put back where
    no token is pending. -/
theorem takes_stop {t : Token} (k : Keyword) (hpending : w.compiler.lexer.pending = none) :
    w.Takes (w.stop t k) := by
  unfold stop
  split
  · next hframes =>
    rw [read, Lexer.unread, hpending]
    exact .ended { w.compiler.lexer with pending := some t } (.ok hframes)
  · next hframes => exact (Moves.closeDefinition hframes).takes
  · next hframes =>
    split
    · exact (Moves.alternative hframes).takes
    · exact takes_closeConditional fun ops h => .closeBranch hframes h
  · next hframes => exact takes_closeConditional fun ops h => .closeAlternative hframes h

theorem takes_endOfInput : w.Takes w.endOfInput := by
  unfold endOfInput
  split
  · next hframes => exact .ended w.compiler.lexer (.ok hframes)
  all_goals exact takes_fail _ fun p t => SyntaxFault.noConfusion

/-- Everything that a token can make of a compilation. -/
theorem takes_step (w : Work) : w.Takes w.step := by
  refine takes_next fun t lexer hnext => ?_
  unfold token
  split
  · exact takes_emit fun room => Value.noConfusion
  · exact takes_emit fun room => Value.noConfusion
  · exact takes_identifier _
  · split
    · exact takes_stop _ (Lexer.pending_next hnext)
    · exact takes_keyword _ _
  · exact takes_endOfInput

-- ---------------------------------------------------------------------------
-- What all tokens keep
-- ---------------------------------------------------------------------------

/-- The compilation comes from `w` to `w'`. -/
inductive Reaches : Work → Work → Prop where
  | refl {w : Work} : Reaches w w
  | step {w w' w'' : Work} : w.step = .more w' → Reaches w' w'' → Reaches w w''

/-- Every compilation comes to a last step. -/
theorem exists_last (w : Work) : ∃ last, w.Reaches last ∧ last.step = .ended w.run := by
  fun_induction run w with
  | case1 w r h => exact ⟨w, .refl, h⟩
  | case2 w w' h _ ih =>
    obtain ⟨last, hreaches, hlast⟩ := ih
    exact ⟨last, .step h hreaches, hlast⟩

/-- What holds during a compilation that started with `c`. The definitions that are open are
    those that it has opened, and there is none if one was open from the start. -/
structure Kept (c : Compiler) (w : Work) : Prop where
  words : c.words.toList <+: w.compiler.words.toList
  compiled : (∀ v ∈ c.words, v.Compiled) → ∀ v ∈ w.compiler.words, v.Compiled
  code : Forward w.ops.toList
  frames : ∀ f ∈ w.frames, f.LeadsForward
  definitions : w.frames.countP (!·.isConditional) + c.defining.toNat = w.compiler.defining.toNat
  stuck : c.defining = true → w.compiler.words = c.words

/-- The code of a conditional without an `else` leads forward, if its part does. -/
theorem forward_ifThen? {yes code : Array Op} (h : Op.ifThen? yes = some code)
    (hyes : Forward yes.toList) : Forward code.toList := by
  unfold Op.ifThen? at h
  split at h
  · cases h
    have hcode : Forward (.jumpIfNot (yes.size + 1) :: yes.toList) :=
      ⟨⟨Nat.succ_pos _, by simp [Op.jumpIfNot]⟩, hyes⟩
    simpa using hcode
  · cases h

theorem forward_ifThenElse? {yes no code : Array Op} (h : Op.ifThenElse? yes no = some code)
    (hyes : Forward yes.toList) (hno : Forward no.toList) : Forward code.toList := by
  unfold Op.ifThenElse? at h
  split at h
  · cases h
    have hjump : Forward (.jump (no.size + 1) :: no.toList) :=
      ⟨⟨Nat.succ_pos _, by simp [Op.jump]⟩, hno⟩
    have hcode : Forward (.jumpIfNot (yes.size + 2) ::
        (yes.toList ++ .jump (no.size + 1) :: no.toList)) :=
      ⟨⟨Nat.succ_pos _, by simp [Op.jumpIfNot]⟩, hyes.append hjump⟩
    simpa using hcode
  · cases h

theorem Kept.closed {c : Compiler} (h : Kept c w) {f : Frame} {frames : List Frame}
    (hframes : w.frames = f :: frames) : f.LeadsForward ∧ ∀ f ∈ frames, f.LeadsForward := by
  have hall := h.frames
  rw [hframes] at hall
  exact List.forall_mem_cons.1 hall

/-- What holds during a compilation is kept by each token. -/
theorem Kept.moves {c : Compiler} (h : Kept c w) (hmoves : w.Moves w') : Kept c w' := by
  have hcount := h.definitions
  cases hmoves with
  | emit hop =>
    refine { h with code := ?_ }
    rw [Array.toList_push]
    exact h.code.append ⟨hop _, trivial⟩
  | openDefinition l name hdefining =>
    refine { h with code := trivial, frames := ?_, definitions := ?_ }
    · exact List.forall_mem_cons.2 ⟨h.code, h.frames⟩
    · rw [hdefining] at hcount
      rw [List.countP_cons_of_pos rfl]
      simp only [Bool.toNat_false, Bool.toNat_true] at hcount ⊢
      omega
  | openConditional l =>
    refine { h with code := trivial, frames := ?_, definitions := ?_ }
    · exact List.forall_mem_cons.2 ⟨h.code, h.frames⟩
    · rwa [List.countP_cons_of_neg (by simp [Frame.isConditional])]
  | @closeDefinition l outer name frames hframes =>
    obtain ⟨houter, hrest⟩ := h.closed hframes
    rw [hframes, List.countP_cons_of_pos rfl] at hcount
    have hle := Bool.toNat_le w.compiler.defining
    refine ⟨?_, ?_, houter, hrest, ?_, ?_⟩
    · rw [Array.toList_push]
      exact h.words.trans (List.prefix_append _ _)
    · intro hc v hv
      rcases Array.mem_push.1 hv with hv | rfl
      · exact h.compiled hc v hv
      · exact ⟨w.ops.toList, h.code, rfl⟩
    · simp only [Bool.toNat_false]
      omega
    · intro hc
      rw [hc, Bool.toNat_true] at hcount
      omega
  | alternative hframes =>
    obtain ⟨houter, hrest⟩ := h.closed hframes
    rw [hframes, List.countP_cons_of_neg (by simp [Frame.isConditional])] at hcount
    refine { h with code := trivial, frames := ?_, definitions := ?_ }
    · exact List.forall_mem_cons.2 ⟨⟨houter, h.code⟩, hrest⟩
    · rwa [List.countP_cons_of_neg (by simp [Frame.isConditional])]
  | closeBranch hframes hcode =>
    obtain ⟨houter, hrest⟩ := h.closed hframes
    rw [hframes, List.countP_cons_of_neg (by simp [Frame.isConditional])] at hcount
    refine { h with code := ?_, frames := hrest, definitions := hcount }
    rw [Array.toList_append]
    exact Forward.append houter (forward_ifThen? hcode h.code)
  | closeAlternative hframes hcode =>
    obtain ⟨⟨houter, hyes⟩, hrest⟩ := h.closed hframes
    rw [hframes, List.countP_cons_of_neg (by simp [Frame.isConditional])] at hcount
    refine { h with code := ?_, frames := hrest, definitions := hcount }
    rw [Array.toList_append]
    exact houter.append (forward_ifThenElse? hcode hyes h.code)

theorem Kept.step {c : Compiler} (h : Kept c w) (hstep : w.step = .more w') : Kept c w' := by
  have htakes := w.takes_step
  rw [hstep] at htakes
  cases htakes with
  | more lexer hmoves => exact Kept.moves (w := w.reading lexer) { h with } hmoves

/-- What holds during a compilation holds wherever it comes. -/
theorem Kept.reaches {c : Compiler} (h : Kept c w) (hreaches : w.Reaches w') : Kept c w' := by
  induction hreaches with
  | refl => exact h
  | step hstep _ ih => exact ih (h.step hstep)

def InDefinition (w : Work) : Prop :=
  ∃ f ∈ w.frames, f.isConditional = false

/-- A definition is open if one was open from the start, or if the compilation has
    opened one. -/
theorem Kept.defining_iff {c : Compiler} (h : Kept c w) :
    w.compiler.defining = true ↔ c.defining = true ∨ w.InDefinition := by
  have hcount := h.definitions
  have hframes : w.InDefinition ↔ 0 < w.frames.countP (!·.isConditional) := by
    simp [InDefinition, List.countP_pos_iff]
  have hopen (b : Bool) : b = true ↔ 0 < b.toNat := by cases b <;> decide
  rw [hframes, hopen, hopen]
  omega

/-- A compilation ends at one token only. -/
theorem Reaches.last_unique {last last' : Work} {r r' : Compiled} (h : w.Reaches last)
    (h' : w.Reaches last') (hlast : last.step = .ended r) (hlast' : last'.step = .ended r') :
    last = last' := by
  induction h with
  | refl =>
    cases h' with
    | refl => rfl
    | step hstep _ => cases hlast.symm.trans hstep
  | step hstep _ ih =>
    cases h' with
    | refl => cases hlast'.symm.trans hstep
    | step hstep' hrest =>
      cases hstep.symm.trans hstep'
      exact ih hrest hlast

theorem kept_start (c : Compiler) (stops : List Keyword) : Kept c { compiler := c, stops } where
  words := List.prefix_refl _
  compiled := id
  code := trivial
  frames := List.forall_mem_nil _
  definitions := Nat.zero_add _
  stuck := fun _ => rfl

end Work

-- ---------------------------------------------------------------------------
-- One call
-- ---------------------------------------------------------------------------

namespace Compiler

variable {c c' : Compiler} {stops : List Keyword}

/-- The compilation fails inside of a definition, behind its name. -/
def FailsInDefinition (c : Compiler) (stops : List Keyword) : Prop :=
  ∃ w e c', ({ compiler := c, stops } : Work).Reaches w ∧ w.step = .ended (.error e c') ∧
    w.InDefinition

/-- The last token of a compilation finds what all tokens keep, and ends the compilation. -/
theorem exists_ends (c : Compiler) (stops : List Keyword) :
    ∃ w lexer, ({ compiler := c, stops } : Work).Reaches w ∧ w.step = .ended (compile stops c) ∧
      w.Kept c ∧ (w.reading lexer).Ends (compile stops c) := by
  obtain ⟨w, hreaches, hstep⟩ := Work.exists_last { compiler := c, stops }
  have hkept := (Work.kept_start c stops).reaches hreaches
  have htakes := w.takes_step
  rw [hstep] at htakes
  cases htakes with
  | ended lexer hends => exact ⟨w, lexer, hreaches, hstep, hkept, hends⟩

/-- Every call leaves behind a compiler of which all that holds. -/
theorem exists_kept (c : Compiler) (stops : List Keyword) :
    ∃ w : Work, w.Kept c ∧ leftBy (compile stops c) = w.compiler := by
  obtain ⟨w, lexer, -, -, hkept, hends⟩ := exists_ends c stops
  exact ⟨w.reading lexer, { hkept with }, hends.leftBy_eq⟩

/-- A call that succeeds has closed the definitions that it opened. -/
theorem defining_of_ok {ops : List Op} (h : compile stops c = .ok ops c') :
    c'.defining = c.defining := by
  obtain ⟨w, lexer, -, -, hkept, hends⟩ := exists_ends c stops
  rw [h] at hends
  cases hends with
  | ok hframes =>
    have hnone : ¬ w.InDefinition := by
      rintro ⟨f, hf, -⟩
      rw [show w.frames = [] from hframes] at hf
      cases hf
    exact Bool.eq_iff_iff.2 (hkept.defining_iff.trans (or_iff_left hnone))

/-- After a failed compilation a definition is open if one was open from the start, or if the
    compilation failed inside of one. -/
theorem defining_of_error {e : SyntaxError} (h : compile stops c = .error e c') :
    c'.defining = true ↔ c.defining = true ∨ c.FailsInDefinition stops := by
  constructor
  · intro hdefining
    obtain ⟨w, lexer, hreaches, hstep, hkept, hends⟩ := exists_ends c stops
    rw [h] at hstep hends
    rw [show c' = _ from hends.leftBy_eq] at hdefining
    rcases hkept.defining_iff.1 hdefining with hc | hframe
    · exact .inl hc
    · exact .inr ⟨w, e, c', hreaches, hstep, hframe⟩
  · intro hopen
    obtain ⟨w, lexer, hreaches, hstep, hkept, hends⟩ := exists_ends c stops
    rw [h] at hstep hends
    rw [show c' = _ from hends.leftBy_eq]
    refine hkept.defining_iff.2 (hopen.imp_right ?_)
    rintro ⟨w', e', c'', hreaches', hstep', hframe⟩
    exact hreaches.last_unique hreaches' hstep hstep' ▸ hframe

/-- No call fails because a token is put back while another one is pending. -/
theorem fault_of_error {e : SyntaxError} (h : compile stops c = .error e c') (p t : Token) :
    e.fault ≠ .alreadyPending p t := by
  obtain ⟨w, lexer, -, -, -, hends⟩ := exists_ends c stops
  rw [h] at hends
  cases hends with
  | error hfault => exact hfault p t

end Compiler

/-- A word that ends in its only return. Its jumps lead forward, at most to that return. -/
def Word.Closed (w : Word) : Prop :=
  ∃ body, w.ops = body ++ [.ret] ∧ (∀ op ∈ body, op.opcode ≠ .ret) ∧
    ∀ k op, body[k]? = some op → op.opcode = .jump ∨ op.opcode = .jumpIfNot →
      1 ≤ op.arg ∧ k + op.arg ≤ body.length

/-- A word as the compiler makes it ends in its only return, and does not jump out of it. -/
theorem Word.Compiled.closed {w : Word} (h : w.Compiled) : w.Closed := by
  obtain ⟨body, hforward, hops⟩ := h
  refine ⟨body, hops, ?_, ?_⟩
  · intro op hop hret
    obtain ⟨k, hk⟩ := List.mem_iff_getElem?.1 hop
    have hsound := hforward.sound hk
    rw [Op.Sound, hret] at hsound
    exact hsound
  · intro k op hk hjump
    have hsound := hforward.sound hk
    have hlt : k < body.length := (List.getElem?_eq_some_iff.1 hk).1
    unfold Op.Sound at hsound
    rcases hjump with hjump | hjump <;> rw [hjump] at hsound <;> simp only at hsound <;> omega

namespace Descent

variable {d d' : Descent}

-- ---------------------------------------------------------------------------
-- Calls one after the other
-- ---------------------------------------------------------------------------

/-- What is left behind by calls with these stop words, one after the other, each of which
    may fail. -/
def afterCalls (d : Descent) (calls : List (List String)) : Descent :=
  calls.foldl (fun d stops => leftBy (compile stops d)) d

/-- What holds between two calls. -/
structure Idle (d : Descent) : Prop where
  nesting : d.nesting = 0
  sane : d.compiler.lexer.Sane
  compiled : ∀ w ∈ d.compiler.words, w.Compiled

theorem idle_ofSource (path source : String) : (ofSource path source).Idle where
  nesting := rfl
  sane := Lexer.sane_of_pending rfl
  compiled := fun w hw => absurd hw (Array.not_mem_empty w)

/-- Between two calls, a call is the compilation with frames. -/
theorem Idle.compile_eq (h : d.Idle) (stops : List String) : compile stops d =
    ofCompiled (Compiler.compile (stops.filterMap Keyword.ofText?) d.compiler) :=
  (Descent.compile_eq h.sane h.nesting stops).1

theorem Idle.exists_kept (h : d.Idle) (stops : List String) :
    ∃ w : Work, w.Kept d.compiler ∧ leftBy (compile stops d) = { compiler := w.compiler } := by
  obtain ⟨w, hkept, hleft⟩ :=
    Compiler.exists_kept d.compiler (stops.filterMap Keyword.ofText?)
  exact ⟨w, hkept, by rw [h.compile_eq, leftBy_ofCompiled, hleft]⟩

theorem Idle.compile (h : d.Idle) (stops : List String) : (leftBy (compile stops d)).Idle := by
  have hsane := (Descent.compile_eq h.sane h.nesting stops).2
  obtain ⟨w, hkept, hleft⟩ := h.exists_kept stops
  rw [hleft] at hsane ⊢
  exact ⟨rfl, hsane, hkept.compiled h.compiled⟩

/-- Any number of calls ends between two calls. -/
theorem Idle.afterCalls (h : d.Idle) (calls : List (List String)) : (d.afterCalls calls).Idle := by
  induction calls generalizing d with
  | nil => exact h
  | cons stops calls ih => exact ih (h.compile stops)

/-- Calls that find a definition open leave it open, and finish no word. -/
theorem Idle.stuck (h : d.Idle) (hopen : d.compiler.defining = true) (calls : List (List String)) :
    (d.afterCalls calls).compiler.defining = true ∧
      (d.afterCalls calls).compiler.words = d.compiler.words := by
  induction calls generalizing d with
  | nil => exact ⟨hopen, rfl⟩
  | cons stops calls ih =>
    obtain ⟨w, hkept, hleft⟩ := h.exists_kept stops
    have hdefining : (leftBy (Descent.compile stops d)).compiler.defining = true := by
      rw [hleft]
      exact hkept.defining_iff.2 (.inl hopen)
    have hwords : (leftBy (Descent.compile stops d)).compiler.words = d.compiler.words := by
      rw [hleft]
      exact hkept.stuck hopen
    obtain ⟨hdefining', hwords'⟩ := ih (h.compile stops) hdefining
    exact ⟨hdefining', hwords'.trans hwords⟩

/-- The words of a program are those of its definitions, and then the code outside of
    them. -/
theorem exists_compile_of_program {words : List Word} (h : program d = .ok words d') :
    ∃ body, compile [] d = .ok body d' ∧
      words = d'.compiler.words.toList ++ [.ofBody Word.topLevel d'.compiler.start body] := by
  change EStateM.bind (compile []) _ d = _ at h
  unfold EStateM.bind at h
  split at h
  · next body d'' hbody =>
    cases h
    exact ⟨body, hbody, rfl⟩
  · cases h

theorem eq_error_of_ofCompiled {r : Compiled} {e : SyntaxError} (h : ofCompiled r = .error e d') :
    r = .error e d'.compiler := by
  cases r <;> cases h
  rfl

theorem eq_ok_of_ofCompiled {r : Compiled} {ops : List Op} (h : ofCompiled r = .ok ops d') :
    r = .ok ops d'.compiler := by
  cases r <;> cases h
  rfl

/-- What one call does to a compiler that is between two calls. -/
structure Call (d : Descent) (stops : List String) : Prop where
  /-- It gives what the compiler with frames gives. -/
  frames : compile stops d =
    ofCompiled (Compiler.compile (stops.filterMap Keyword.ofText?) d.compiler)
  /-- No token that it puts back is refused. -/
  putBack : ∀ e d', compile stops d = .error e d' → ∀ p t, e.fault ≠ .alreadyPending p t
  /-- No conditional is open in front of it or behind it. -/
  nesting : d.nesting = 0 ∧ (leftBy (compile stops d)).nesting = 0
  /-- It only adds words. -/
  words : d.compiler.words.toList <+: (leftBy (compile stops d)).compiler.words.toList
  /-- All finished words end in their only return. -/
  closed : ∀ w ∈ (leftBy (compile stops d)).compiler.words, w.Closed
  /-- If it does not fail, it closes what it opens. -/
  defining : ∀ ops d', compile stops d = .ok ops d' → d'.compiler.defining = d.compiler.defining
  /-- If it fails, it leaves a definition open just if one was open or it failed inside of
      one. -/
  failed : ∀ e d', compile stops d = .error e d' →
    (d'.compiler.defining = true ↔ d.compiler.defining = true ∨
      d.compiler.FailsInDefinition (stops.filterMap Keyword.ofText?))
  /-- If it fails inside of a definition, that definition stays open. From then on no call
      finishes a word, and a program has just the words that are finished. -/
  stuck : ∀ e d', compile stops d = .error e d' →
    d.compiler.FailsInDefinition (stops.filterMap Keyword.ofText?) →
    ∀ later, (d'.afterCalls later).compiler.defining = true ∧
      (d'.afterCalls later).compiler.words = d'.compiler.words ∧
      ∀ words d'', program (d'.afterCalls later) = .ok words d'' →
        ∃ top, top.name = Word.topLevel ∧ words = d'.compiler.words.toList ++ [top]

/-- Whatever calls a compiler has gone through, and whichever of them failed, its next call
    counts no conditional behind its end, never fails to put a token back, and keeps the
    finished words. Once a call has failed inside of a definition, no word is finished. -/
theorem call_afterCalls (path source : String) (calls : List (List String))
    (stops : List String) : ((ofSource path source).afterCalls calls).Call stops := by
  have hidle := (idle_ofSource path source).afterCalls calls
  generalize (ofSource path source).afterCalls calls = d at hidle ⊢
  obtain ⟨w, hkept, hleft⟩ := hidle.exists_kept stops
  have herror : ∀ e d', compile stops d = .error e d' →
      Compiler.compile (stops.filterMap Keyword.ofText?) d.compiler = .error e d'.compiler :=
    fun e d' h => eq_error_of_ofCompiled ((hidle.compile_eq stops).symm.trans h)
  refine ⟨hidle.compile_eq stops, ?_, ⟨hidle.nesting, (hidle.compile stops).nesting⟩, ?_, ?_, ?_,
    ?_, ?_⟩
  · exact fun e d' h => Compiler.fault_of_error (herror e d' h)
  · rw [hleft]
    exact hkept.words
  · exact fun w hw => ((hidle.compile stops).compiled w hw).closed
  · intro ops d' h
    exact Compiler.defining_of_ok (eq_ok_of_ofCompiled ((hidle.compile_eq stops).symm.trans h))
  · exact fun e d' h => Compiler.defining_of_error (herror e d' h)
  · intro e d' h hfails later
    have hidle' : d'.Idle := by
      have hbehind := hidle.compile stops
      rwa [h] at hbehind
    have hopen := (Compiler.defining_of_error (herror e d' h)).2 (.inr hfails)
    obtain ⟨hdefining, hwords⟩ := hidle'.stuck hopen later
    refine ⟨hdefining, hwords, fun words d'' hprogram => ?_⟩
    obtain ⟨body, hbody, rfl⟩ := exists_compile_of_program hprogram
    have hlast : (leftBy (compile [] (d'.afterCalls later))).compiler.words = _ :=
      ((hidle'.afterCalls later).stuck hdefining [[]]).2
    rw [hbody] at hlast
    exact ⟨.ofBody Word.topLevel d''.compiler.start body, rfl, by rw [← hwords, ← hlast]; rfl⟩

/-- The first call fails inside of a definition, the second one at the next colon. -/
example :
    let d := (ofSource "a" ": f 1 ; : g 2 ) 3 : h 4 ;").afterCalls [[], []]
    d.compiler.defining = true ∧ d.nesting = 0 ∧ d.compiler.words.map (·.name) = #["f"] := by
  decide +kernel

end Descent

end Forth
