-- SUMMARY: Limited outputs: a run whose output takes only so many bytes is the unlimited run, cut at the limit.
import Forth.Proofs.Safety
import Forth.Proofs.Simulation
import Mathlib.Data.Nat.Find

/-!
# Limited outputs

Only printing looks at the output, so a run does the same on any two outputs until it
prints. Printing to an output with a limit does the same as printing without one as
long as all bytes fit. The first value that does not fit is cut, the run stops there,
and what it has printed is the front of what it prints without the limit.
-/

namespace Forth

-- ---------------------------------------------------------------------------
-- Writing up to a limit
-- ---------------------------------------------------------------------------

namespace Sink

variable {front bytes : ByteArray} {limit : Nat}

theorem accepts_unlimited (front bytes : ByteArray) :
    (⟨front, none⟩ : Sink).accepts bytes = true := by
  simp [accepts, room]

theorem write_unlimited (front bytes : ByteArray) :
    (⟨front, none⟩ : Sink).write bytes = ⟨front ++ bytes, none⟩ := by
  simp [write, room]

/-- A sink that is not over its limit takes what fits together with what it has. -/
theorem accepts_limited (h : front.size ≤ limit) (bytes : ByteArray) :
    (⟨front, some limit⟩ : Sink).accepts bytes = decide (front.size + bytes.size ≤ limit) := by
  have hiff : min bytes.size (limit - front.size) = bytes.size ↔
      front.size + bytes.size ≤ limit := by omega
  simp only [accepts, room, hiff]

theorem extract_of_size_le (h : bytes.size ≤ limit) : bytes.extract 0 limit = bytes := by
  rw [← Nat.max_eq_left h, ByteArray.extract_zero_max_size]

theorem extract_append_of_le (h : limit ≤ front.size) (bytes : ByteArray) :
    (front ++ bytes).extract 0 limit = front.extract 0 limit := by
  rw [ByteArray.extract_append, Nat.sub_eq_zero_of_le h]
  simp

/-- A sink that is not over its limit keeps the front of everything that is written. -/
theorem write_limited (h : front.size ≤ limit) (bytes : ByteArray) :
    (⟨front, some limit⟩ : Sink).write bytes =
      ⟨(front ++ bytes).extract 0 limit, some limit⟩ := by
  have hroom : bytes.extract 0 (min bytes.size (limit - front.size)) =
      bytes.extract 0 (limit - front.size) := by
    by_cases hfits : bytes.size ≤ limit - front.size
    · rw [Nat.min_eq_left hfits, ByteArray.extract_zero_size, extract_of_size_le hfits]
    · rw [Nat.min_eq_right (Nat.le_of_not_le hfits)]
  simp only [write, room, hroom, ByteArray.extract_append, extract_of_size_le h, Nat.zero_sub]

theorem write_empty (s : Sink) : s.write .empty = s := by
  have hroom : s.room ByteArray.empty.size = 0 := Nat.le_zero.1 (s.room_le 0)
  rw [write, hroom]
  simp

end Sink

-- ---------------------------------------------------------------------------
-- Actions that do not print
-- ---------------------------------------------------------------------------

def State.writingTo (s : State) (output : Sink) : State :=
  { s with output }

namespace Action

variable {α β : Type}

def resultTo (output : Sink) : EStateM.Result Fault State α → EStateM.Result Fault State α
  | .ok x s => .ok x (s.writingTo output)
  | .error fault s => .error fault (s.writingTo output)

/-- The action does the same whatever the output is, and leaves the output alone. -/
def Silent (a : Action α) : Prop :=
  ∀ s output, a (s.writingTo output) = resultTo output (a s)

theorem silent_pure (x : α) : Silent (pure x) :=
  fun _ _ => rfl

theorem silent_throw (fault : Fault) : Silent (throw fault : Action α) :=
  fun _ _ => rfl

theorem Silent.bind {a : Action α} {f : α → Action β} (ha : a.Silent) (hf : ∀ x, (f x).Silent) :
    Silent (a >>= f) := by
  intro s output
  have h := ha s output
  cases hr : a s with
  | ok x s' =>
    rw [hr] at h
    rw [bind_of_ok hr, bind_of_ok h]
    exact hf x s' output
  | error fault s' =>
    rw [hr] at h
    rw [bind_of_error hr, bind_of_error h]
    rfl

theorem silent_push (v : Value) : (push v).Silent :=
  fun _ _ => rfl

theorem silent_pop : pop.Silent := by
  rintro ⟨stack, vars, output⟩ output'
  cases stack <;> rfl

theorem silent_popInt : popInt.Silent := by
  apply silent_pop.bind
  intro v
  cases v with
  | int n => exact silent_pure n
  | void | str s => exact silent_throw _

theorem silent_pick (depth : Nat) : (pick depth).Silent := by
  intro s output
  simp only [pick, State.writingTo]
  cases s.stack[depth]? <;> rfl

theorem silent_discard (count : Nat) : (discard count).Silent := by
  intro s output
  simp only [discard, State.writingTo]
  cases dropExactly? count s.stack <;> rfl

theorem silent_readVariable (name : String) : (readVariable name).Silent := by
  intro s output
  simp only [readVariable, State.writingTo]
  cases s.vars.get? name <;> rfl

theorem silent_writeVariable (name : String) (v : Value) : (writeVariable name v).Silent :=
  fun _ _ => rfl

theorem silent_binary {f : Int64 → Int64 → Action Unit} (hf : ∀ a b, (f a b).Silent) :
    Silent (do let b ← popInt; let a ← popInt; f a b) :=
  silent_popInt.bind fun b => silent_popInt.bind fun a => hf a b

theorem silent_mod : mod.Silent := by
  apply silent_binary
  intro a b
  split
  · exact silent_throw _
  · exact silent_push _

theorem Silent.next {a : Action Unit} (ha : a.Silent) : Silent (do a; return Flow.next) :=
  ha.bind fun _ => silent_pure _

end Action

namespace Image

theorem silent_constant (image : Image) (index : Nat) : (image.constant index).Silent := by
  unfold constant
  split
  · exact Action.silent_pure _
  · exact Action.silent_throw _

theorem silent_variableName (image : Image) (index : Nat) :
    (image.variableName index).Silent := by
  apply (image.silent_constant index).bind
  intro v
  cases v with
  | str name => exact Action.silent_pure name
  | void | int n => exact Action.silent_throw _

/-- Every operation but printing is silent. -/
theorem silent_execute (image : Image) (argument : Nat) {o : Opcode} (ho : o ≠ .print) :
    (image.execute argument o).Silent := by
  cases o with
  | print => exact absurd rfl ho
  | invalid => exact Action.silent_throw _
  | ret | call | jump => exact Action.silent_pure _
  | push => exact (image.silent_constant argument).bind fun v => (Action.silent_push v).next
  | jumpIfNot => exact Action.silent_pop.bind fun _ => Action.silent_pure _
  | add => exact (Action.silent_binary fun _ _ => Action.silent_push _).next
  | mod => exact Action.silent_mod.next
  | dup => exact ((Action.silent_pick argument).bind fun v => Action.silent_push v).next
  | drop => exact (Action.silent_discard argument).next
  | and => exact (Action.silent_binary fun _ _ => Action.silent_push _).next
  | store =>
    apply (image.silent_variableName argument).bind
    intro name
    exact (Action.silent_pop.bind fun v => Action.silent_writeVariable name v).next
  | fetch =>
    apply (image.silent_variableName argument).bind
    intro name
    exact ((Action.silent_readVariable name).bind fun v => Action.silent_push v).next

end Image

-- ---------------------------------------------------------------------------
-- Steps
-- ---------------------------------------------------------------------------

namespace Machine

variable {m before : Machine} {limit n : Nat} {v : Value} {rest : List Value}

/-- The next instruction prints `v`, and leaves the values `rest` on the stack. -/
structure Prints (m : Machine) (v : Value) (rest : List Value) : Prop where
  instruction : ∃ i, m.image.instruction? m.ip = some i ∧ i.opcode? = some .print
  stack : m.state.stack = v :: rest
  printable : v ≠ .void

/-- The machine behind an instruction that has printed something, or has tried to. -/
def printed (m : Machine) (ip : Nat) (rest : List Value) (output : Sink) : Machine :=
  { m with ip, state := { m.state with stack := rest, output } }

/-- Printing writes the value to the output. If that fails, the value is gone. -/
theorem step_of_prints (h : m.Prints v rest) :
    m.step =
      if m.state.output.accepts v.render.toUTF8 then
        (.running, m.printed (m.ip + 1) rest (m.state.output.write v.render.toUTF8))
      else
        (.failed .writeFailed, m.printed m.ip rest (m.state.output.write v.render.toUTF8)) := by
  obtain ⟨⟨i, hi, ho⟩, hstack, hv⟩ := h
  have hprint : Action.print m.state = Action.write v.render { m.state with stack := rest } := by
    have hpop : Action.pop m.state = .ok v { m.state with stack := rest } := by
      rw [Action.pop, hstack]
    rw [Action.print, Action.bind_of_ok hpop]
    cases v with
    | void => exact absurd rfl hv
    | int k | str s => rfl
  unfold step
  rw [Image.executeAt_of_opcode? hi ho, Image.execute]
  unfold Action.write at hprint
  dsimp only at hprint
  split at hprint
  · rename_i haccepts
    rw [Action.bind_of_ok hprint, if_pos haccepts]
    rfl
  · rename_i haccepts
    rw [Action.bind_of_error hprint, if_neg haccepts]
    rfl

/-- Where a machine goes on does not depend on its output. -/
theorem follow_writingTo (m : Machine) (flow : Flow) (output : Sink) :
    (m.writingTo output).follow flow = ((m.follow flow).1, (m.follow flow).2.writingTo output) := by
  obtain ⟨image, ip, calls, state⟩ := m
  cases flow with
  | next | jump target | enter target => rfl
  | leave => cases calls <;> rfl

/-- A step does not depend on the output, if its instruction does not. -/
theorem step_writingTo {output : Sink}
    (h : m.image.executeAt m.ip (m.state.writingTo output) =
      Action.resultTo output (m.image.executeAt m.ip m.state)) :
    (m.writingTo output).step = (m.step.1, m.step.2.writingTo output) := by
  have hresult : (m.writingTo output).image.executeAt (m.writingTo output).ip
      (m.writingTo output).state = Action.resultTo output (m.image.executeAt m.ip m.state) := h
  unfold step
  rw [hresult]
  cases m.image.executeAt m.ip m.state with
  | ok flow s => exact follow_writingTo { m with state := s } flow output
  | error fault s => rfl

/-- An instruction prints a value, or does the same whatever the output is. -/
theorem prints_or_silent (m : Machine) :
    (∃ v rest, m.Prints v rest) ∨
      ∀ output, (m.writingTo output).step = (m.step.1, m.step.2.writingTo output) := by
  by_cases hprints : ∃ v rest, m.Prints v rest
  · exact .inl hprints
  · refine .inr fun output => step_writingTo ?_
    cases hi : m.image.instruction? m.ip with
    | none =>
      rw [Image.executeAt, hi]
      rfl
    | some i =>
      cases ho : i.opcode? with
      | none =>
        have hbyte : Opcode.ofByte? i.byte = none := ho
        rw [Image.executeAt, hi]
        simp only [hbyte]
        rfl
      | some o =>
        rw [Image.executeAt_of_opcode? hi ho]
        by_cases hprint : o = .print
        · -- nothing is printed because there is nothing to print
          subst hprint
          obtain ⟨image, ip, calls, ⟨stack, vars, sink⟩⟩ := m
          cases stack with
          | nil => rfl
          | cons v rest =>
            cases v with
            | void => rfl
            | int k | str s =>
              exact absurd ⟨_, rest, ⟨i, hi, ho⟩, rfl, Value.noConfusion⟩ hprints
        · exact m.image.silent_execute i.argument hprint m.state output

/-- A step that does not depend on the output leaves it alone. -/
theorem output_of_silent
    (h : ∀ output, (m.writingTo output).step = (m.step.1, m.step.2.writingTo output)) :
    m.step.2.state.output = m.state.output := by
  have hself : m.step = (m.step.1, m.step.2.writingTo m.state.output) := h m.state.output
  rw [hself]
  rfl

/-- What was written stays, and more may be written behind it. -/
theorem exists_written_step (m : Machine) :
    ∃ more, m.step.2.state.output.written = m.state.output.written ++ more := by
  rcases m.prints_or_silent with ⟨v, rest, hprints⟩ | hsilent
  · rw [step_of_prints hprints]
    split <;> exact ⟨_, rfl⟩
  · exact ⟨.empty, by simp [output_of_silent hsilent]⟩

/-- A run only appends to its output. -/
theorem exists_written_runFor (m : Machine) (n : Nat) :
    ∃ more, (m.runFor n).2.state.output.written = m.state.output.written ++ more := by
  induction n generalizing m with
  | zero => exact ⟨.empty, by simp⟩
  | succ n ih =>
    obtain ⟨more, hmore⟩ := m.exists_written_step
    rw [runFor]
    split
    · rename_i m' hm'
      obtain ⟨more', hmore'⟩ := ih m'
      rw [hm'] at hmore
      exact ⟨more ++ more', by rw [hmore', hmore, ByteArray.append_assoc]⟩
    · exact ⟨more, hmore⟩

-- ---------------------------------------------------------------------------
-- Runs
-- ---------------------------------------------------------------------------

/-- The machine with a limit on its output. What is written already counts. -/
def limitedTo (m : Machine) (limit : Nat) : Machine :=
  m.writingTo { m.state.output with limit := some limit }

theorem Prints.writingTo (h : m.Prints v rest) (output : Sink) :
    (m.writingTo output).Prints v rest :=
  ⟨h.instruction, h.stack, h.printable⟩

/-- Without a limit every value is printed. -/
theorem step_unlimited (h : m.Prints v rest) (hfree : m.state.output.limit = none) :
    m.step = (.running, m.printed (m.ip + 1) rest
      ⟨m.state.output.written ++ v.render.toUTF8, none⟩) := by
  have houtput : m.state.output = ⟨m.state.output.written, none⟩ := by
    rw [← hfree]
  rw [step_of_prints h, houtput, Sink.accepts_unlimited, Sink.write_unlimited, if_pos rfl]

/-- With a limit a value is printed if all of it fits, and cut otherwise. -/
theorem step_limitedTo (h : m.Prints v rest) (hfits : m.state.output.written.size ≤ limit) :
    (m.limitedTo limit).step =
      if m.state.output.written.size + v.render.toUTF8.size ≤ limit then
        (.running, m.printed (m.ip + 1) rest
          ⟨(m.state.output.written ++ v.render.toUTF8).extract 0 limit, some limit⟩)
      else
        (.failed .writeFailed, m.printed m.ip rest
          ⟨(m.state.output.written ++ v.render.toUTF8).extract 0 limit, some limit⟩) := by
  have hprints := h.writingTo ⟨m.state.output.written, some limit⟩
  have hstep := step_of_prints hprints
  simp only [writingTo, Sink.accepts_limited hfits, Sink.write_limited hfits,
    decide_eq_true_eq] at hstep
  exact hstep

/-- As long as what is written fits, a step does not notice the limit. -/
theorem step_of_fits (hfree : m.state.output.limit = none)
    (hfits : m.step.2.state.output.written.size ≤ limit) :
    m.step.2.state.output.limit = none ∧
      (m.limitedTo limit).step = (m.step.1, m.step.2.limitedTo limit) := by
  rcases m.prints_or_silent with ⟨v, rest, hprints⟩ | hsilent
  · rw [step_unlimited hprints hfree] at hfits ⊢
    have hsize : m.state.output.written.size + v.render.toUTF8.size ≤ limit := by
      simpa [printed] using hfits
    refine ⟨rfl, ?_⟩
    rw [step_limitedTo hprints (Nat.le_trans (Nat.le_add_right _ _) hsize), if_pos hsize,
      Sink.extract_of_size_le (by rwa [ByteArray.size_append])]
    rfl
  · have houtput := output_of_silent hsilent
    refine ⟨houtput ▸ hfree, ?_⟩
    rw [limitedTo, hsilent, limitedTo, houtput]

/-- As long as what is written fits, a run does not notice the limit. -/
theorem runFor_of_fits (hfree : m.state.output.limit = none)
    (hfits : ∀ k ≤ n, (m.runFor k).2.state.output.written.size ≤ limit) :
    (m.runFor n).2.state.output.limit = none ∧
      (m.limitedTo limit).runFor n = ((m.runFor n).1, (m.runFor n).2.limitedTo limit) := by
  induction n generalizing m with
  | zero => exact ⟨hfree, rfl⟩
  | succ n ih =>
    have hfirst := hfits 1 (Nat.succ_le_succ (Nat.zero_le n))
    rw [runFor_one] at hfirst
    obtain ⟨hfree', hstep⟩ := step_of_fits hfree hfirst
    rw [runFor, runFor, hstep]
    cases hm : m.step with
    | mk status m' =>
      rw [hm] at hfree'
      cases status with
      | running =>
        refine ih hfree' fun k hk => ?_
        have hle := hfits (k + 1) (Nat.succ_le_succ hk)
        rw [runFor, hm] at hle
        exact hle
      | halted | failed fault => exact ⟨hfree', rfl⟩

/-- If what is written does not fit in the end, there is a first value that does not fit,
    and it is printed while everything before it fits. -/
theorem exists_prints_beyond (hfree : m.state.output.limit = none)
    (hstart : m.state.output.written.size ≤ limit)
    (hbeyond : ∃ n, limit < (m.runFor n).2.state.output.written.size) :
    ∃ n before v rest, m.runFor n = (.running, before) ∧
      (∀ k ≤ n, (m.runFor k).2.state.output.written.size ≤ limit) ∧ before.Prints v rest ∧
      limit < before.state.output.written.size + v.render.toUTF8.size := by
  -- the step before the first one behind which too much is written
  obtain ⟨n, hn⟩ : ∃ n, Nat.find hbeyond = n + 1 := by
    apply Nat.exists_eq_succ_of_ne_zero
    intro hzero
    have hlt := Nat.find_spec hbeyond
    rw [hzero] at hlt
    exact Nat.not_le_of_lt hlt hstart
  have hfits : ∀ k ≤ n, (m.runFor k).2.state.output.written.size ≤ limit := fun k hk =>
    Nat.le_of_not_lt (Nat.find_min hbeyond (hn ▸ Nat.lt_succ_of_le hk))
  have hlt : limit < (m.runFor (n + 1)).2.state.output.written.size :=
    hn ▸ Nat.find_spec hbeyond
  have hrunning : m.runFor n = (.running, (m.runFor n).2) := by
    refine Prod.ext ?_ rfl
    by_contra hended
    rw [runFor_of_ended hended 1] at hlt
    exact Nat.not_lt_of_le (hfits n (Nat.le_refl n)) hlt
  have hfree' := (runFor_of_fits hfree hfits).1
  rw [runFor_succ hrunning] at hlt
  refine ⟨n, (m.runFor n).2, ?_⟩
  rcases (m.runFor n).2.prints_or_silent with ⟨v, rest, hprints⟩ | hsilent
  · rw [step_unlimited hprints hfree'] at hlt
    exact ⟨v, rest, hrunning, hfits, hprints, by simpa [printed] using hlt⟩
  · rw [output_of_silent hsilent] at hlt
    exact absurd hlt (Nat.not_lt_of_le (hfits n (Nat.le_refl n)))

section Beyond

variable (hfree : m.state.output.limit = none) (hbefore : m.runFor n = (.running, before))
  (hfits : ∀ k ≤ n, (m.runFor k).2.state.output.written.size ≤ limit)
  (hprints : before.Prints v rest)
  (hbeyond : limit < before.state.output.written.size + v.render.toUTF8.size)

include hfree hbefore hfits hprints hbeyond

/-- At the first value that does not fit a limited run fails, and stays there. -/
theorem runFor_of_prints_beyond {k : Nat} (hk : n < k) :
    (m.limitedTo limit).runFor k = (.failed .writeFailed, before.printed before.ip rest
      ⟨(before.state.output.written ++ v.render.toUTF8).extract 0 limit, some limit⟩) := by
  have hrun := (runFor_of_fits hfree hfits).2
  have hsize := hfits n (Nat.le_refl n)
  rw [hbefore] at hrun hsize
  have hfailed := step_limitedTo hprints hsize
  rw [if_neg (Nat.not_le_of_lt hbeyond), ← runFor_succ hrun] at hfailed
  have hended : ((m.limitedTo limit).runFor (n + 1)).1 ≠ .running := by
    rw [hfailed]
    exact Status.noConfusion
  obtain ⟨j, rfl⟩ := Nat.exists_eq_add_of_le hk
  rw [runFor_of_ended hended, hfailed]

/-- What an unlimited run writes behind that value does not change the front. -/
theorem extract_of_prints_beyond {k : Nat} (hk : n < k) :
    (m.runFor k).2.state.output.written.extract 0 limit =
      (before.state.output.written ++ v.render.toUTF8).extract 0 limit := by
  have hfree' := (runFor_of_fits hfree hfits).1
  rw [hbefore] at hfree'
  have hstep := (runFor_succ hbefore).trans (step_unlimited hprints hfree')
  obtain ⟨j, rfl⟩ := Nat.exists_eq_add_of_le hk
  obtain ⟨more, hmore⟩ := exists_written_runFor (before.printed (before.ip + 1) rest
    ⟨before.state.output.written ++ v.render.toUTF8, none⟩) j
  rw [runFor_of_running hstep, hmore]
  apply Sink.extract_append_of_le
  rw [printed, ByteArray.size_append]
  exact Nat.le_of_lt hbeyond

end Beyond

/-- The limit cuts the run of a machine at its step `n`: the machine is `before` in front of
    it, and about to print `v`, and the limited run ends as `stopped`. -/
structure CutAt (m : Machine) (limit n : Nat) (before stopped : Machine) (v : Value)
    (rest : List Value) : Prop where
  /-- Both runs come to the same place. -/
  unlimited : (m.writingTo {}).runFor n = (.running, before)
  limited : (m.writingTo { limit := some limit }).runFor n = (.running, before.limitedTo limit)
  /-- The value that is printed there is the first one of which not all bytes fit. -/
  prints : before.Prints v rest
  fits : before.state.output.written.size ≤ limit
  beyond : limit < before.state.output.written.size + v.render.toUTF8.size
  /-- The limited run ends with an error that has no place and no trace. -/
  ends : ∀ k, n < k →
    (m.writingTo { limit := some limit }).runFor k = (.failed .writeFailed, stopped)
  report : stopped.report .writeFailed =
    { location := none, message := "I/O error: failed to write whole buffer", trace := none }
  /-- It has written the first bytes of the unlimited run, as many as the limit allows. -/
  size : stopped.state.output.written.size = limit
  front : ∀ k, n < k → stopped.state.output.written =
    ((m.writingTo {}).runFor k).2.state.output.written.extract 0 limit
  /-- The value is gone from the stack, and all else is as it was. -/
  state : stopped = { before with
    state := { before.state with stack := rest, output := stopped.state.output } }

/-- A limit that the whole output goes beyond cuts the run at some step. -/
theorem exists_cutAt
    (h : ∃ n, limit < ((m.writingTo {}).runFor n).2.state.output.written.size) :
    ∃ n before stopped v rest, m.CutAt limit n before stopped v rest := by
  have hfree : (m.writingTo {}).state.output.limit = none := rfl
  obtain ⟨n, before, v, rest, hbefore, hfits, hprints, hbeyond⟩ :=
    exists_prints_beyond hfree (Nat.zero_le limit) h
  have hrun := (runFor_of_fits hfree hfits).2
  have hsize := hfits n (Nat.le_refl n)
  rw [hbefore] at hrun hsize
  refine ⟨n, before, _, v, rest, hbefore, hrun, hprints, hsize, hbeyond,
    fun k => runFor_of_prints_beyond hfree hbefore hfits hprints hbeyond, rfl, ?_,
    fun k hk => (extract_of_prints_beyond hfree hbefore hfits hprints hbeyond hk).symm, rfl⟩
  simp only [printed, ByteArray.size_extract, ByteArray.size_append]
  omega

/-- A limit on the output cuts a run, and does nothing else. If the unlimited run never
    writes more than the limit, the limited run is the same at every step, and otherwise it
    is cut. The empty string is printed whatever the limit. -/
theorem runFor_limited (m : Machine) (limit : Nat) :
    ((∀ n, ((m.writingTo {}).runFor n).2.state.output.written.size ≤ limit) →
      ∀ n, (m.writingTo { limit := some limit }).runFor n =
        (((m.writingTo {}).runFor n).1, ((m.writingTo {}).runFor n).2.limitedTo limit)) ∧
    ((∃ n, limit < ((m.writingTo {}).runFor n).2.state.output.written.size) →
      ∃ n before stopped v rest, m.CutAt limit n before stopped v rest) ∧
    ∀ (m : Machine) (rest : List Value), m.Prints (.str "") rest →
      m.step = (.running, { m with ip := m.ip + 1, state := { m.state with stack := rest } }) := by
  refine ⟨?_, exists_cutAt, ?_⟩
  · intro hfits n
    exact (runFor_of_fits (m := m.writingTo {}) rfl fun k _ => hfits k).2
  · intro m rest hprints
    have hempty : (Value.str "").render.toUTF8 = .empty := rfl
    rw [step_of_prints hprints, hempty, Sink.accepts_empty, if_pos rfl, Sink.write_empty]
    rfl

/-- A value is cut inside, and an empty string behind the last byte that fits is not. -/
example :
    let m := (({} : Machine).tryLoad ("a", "-12 . \"\" . 345 .")).writingTo { limit := some 4 }
    (m.runFor 9).1 = .failed .writeFailed ∧ (m.runFor 9).2.ip = 5 ∧
      (m.runFor 9).2.state.output.written = "-123".toUTF8 := by
  decide +kernel

end Machine

end Forth
