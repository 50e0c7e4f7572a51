-- SUMMARY: Failing instructions: which faults they raise, and the exact state they leave behind.
import Forth.Proofs.Frames

/-!
# Failing instructions

An instruction that fails keeps what it has done so far. That is never more than taking
one or two values off the stack, and writing the part of a value that the output takes.
The relation `Image.RaisesAt` says which fault the instruction at an address raises in a
state, and how many values it has taken off the stack by then. A run fails just if it
comes to such an instruction, and then nothing else has changed.
-/

namespace Forth

-- ---------------------------------------------------------------------------
-- Faults and their causes
-- ---------------------------------------------------------------------------

def Opcode.isBinary : Opcode → Bool
  | add | mod | and => true
  | _ => false

theorem Opcode.ofByte?_ne_invalid {b : UInt8} {o : Opcode} (h : ofByte? b = some o) :
    o ≠ invalid := by
  rintro rfl
  unfold ofByte? at h
  split at h <;> cases h

/-- The fault of an operation on two integers that does not find them on the stack, and
    how many values it has taken off. -/
inductive OperandFault : List Value → Fault → Nat → Prop where
  | empty : OperandFault [] .underflow 0
  | top {v : Value} {rest : List Value} :
      (∀ n, v ≠ .int n) → OperandFault (v :: rest) (.notAnInteger v.kind) 1
  | single {n : Int64} : OperandFault [.int n] .underflow 1
  | second {n : Int64} {v : Value} {rest : List Value} :
      (∀ n, v ≠ .int n) → OperandFault (.int n :: v :: rest) (.notAnInteger v.kind) 2

namespace Image

/-- The fault of an operation on a variable that does not find a name in the pool. -/
inductive NameFault (image : Image) (index : Nat) : Fault → Prop where
  | noConstant : image.constant? index = none → NameFault image index (.constantOutOfRange index)
  | notAName {v : Value} : image.constant? index = some v → (∀ name, v ≠ .str name) →
      NameFault image index (.notAName v.kind)

/-- The fault of an operation with an argument, and how many values it has taken off the
    stack when it fails. -/
inductive Raises (image : Image) (argument : Nat) (s : State) : Opcode → Fault → Nat → Prop where
  | push : image.constant? argument = none →
      Raises image argument s .push (.constantOutOfRange argument) 0
  | dup : s.stack.length ≤ argument →
      Raises image argument s .dup (.pickUnderflow argument s.stack.length) 0
  | drop : s.stack.length < argument →
      Raises image argument s .drop (.dropUnderflow argument s.stack.length) 0
  | name {o : Opcode} {fault : Fault} : o = .store ∨ o = .fetch → image.NameFault argument fault →
      Raises image argument s o fault 0
  | unset {name : String} : image.constant? argument = some (.str name) →
      s.vars.get? name = none → Raises image argument s .fetch (.unsetVariable name) 0
  | store {name : String} : image.constant? argument = some (.str name) → s.stack = [] →
      Raises image argument s .store .underflow 0
  | jumpIfNot : s.stack = [] → Raises image argument s .jumpIfNot .underflow 0
  | print : s.stack = [] → Raises image argument s .print .underflow 0
  | void {rest : List Value} : s.stack = .void :: rest →
      Raises image argument s .print .voidPrinted 1
  | refused {v : Value} {rest : List Value} : s.stack = v :: rest → v ≠ .void →
      s.output.accepts v.render.toUTF8 = false → Raises image argument s .print .writeFailed 1
  | operand {o : Opcode} {fault : Fault} {taken : Nat} : o.isBinary = true →
      OperandFault s.stack fault taken → Raises image argument s o fault taken
  | zero {a : Int64} {rest : List Value} : s.stack = .int 0 :: .int a :: rest →
      Raises image argument s .mod .moduloByZero 2

/-- The fault of the instruction at an address, and how many values it has taken off the
    stack when it fails. -/
inductive RaisesAt (image : Image) (p : Nat) (s : State) : Fault → Nat → Prop where
  | outside : image.instruction? p = none → RaisesAt image p s (.outsideProgram p) 0
  | noHandler {i : Instruction} : image.instruction? p = some i → i.opcode? = none →
      RaisesAt image p s (.noHandler i.byte) 0
  | operation {i : Instruction} {o : Opcode} {fault : Fault} {taken : Nat} :
      image.instruction? p = some i → i.opcode? = some o →
      image.Raises i.argument s o fault taken → RaisesAt image p s fault taken

end Image

/-- What a fault leaves of a state when the top `taken` values are gone. Of a value that
    the output refuses, it has taken what fits. -/
def State.failing (s : State) (fault : Fault) (taken : Nat) : State where
  stack := s.stack.drop taken
  vars := s.vars
  output :=
    match fault, s.stack with
    | .writeFailed, v :: _ => s.output.write v.render.toUTF8
    | _, _ => s.output

-- ---------------------------------------------------------------------------
-- Failing operations
-- ---------------------------------------------------------------------------

namespace Action

variable {s s' : State} {fault : Fault}

theorem next_eq_error_iff {a : Action Unit} :
    (do a; return Flow.next : Action Flow) s = .error fault s' ↔ a s = .error fault s' := by
  cases hr : a s with
  | ok x s₁ => simp [bind_of_ok hr, pure, EStateM.pure]
  | error fault₁ s₁ => simp [bind_of_error hr]

/-- An operation on two integers fails if it does not find them, or else as what it does
    with them. -/
theorem binary_eq_error_iff {f : Int64 → Int64 → Action Unit} :
    (do let b ← popInt; let a ← popInt; f a b : Action Unit) s = .error fault s' ↔
      (∃ taken, OperandFault s.stack fault taken ∧ s' = s.failing fault taken) ∨
      ∃ a b rest, s.stack = .int b :: .int a :: rest ∧
        f a b { s with stack := rest } = .error fault s' := by
  obtain ⟨stack, vars, output⟩ := s
  constructor
  · intro h
    cases stack with
    | nil =>
      cases h
      exact .inl ⟨0, .empty, rfl⟩
    | cons v rest =>
      cases v with
      | void | str t =>
        cases h
        exact .inl ⟨1, .top fun _ => Value.noConfusion, rfl⟩
      | int b =>
        cases rest with
        | nil =>
          cases h
          exact .inl ⟨1, .single, rfl⟩
        | cons w rest =>
          cases w with
          | void | str t =>
            cases h
            exact .inl ⟨2, .second fun _ => Value.noConfusion, rfl⟩
          | int a => exact .inr ⟨a, b, rest, rfl, h⟩
  · rintro (⟨taken, hfault, rfl⟩ | ⟨a, b, rest, rfl, h⟩)
    · cases hfault with
      | empty | single => rfl
      | @top v rest hv | @second n v rest hv =>
        cases v with
        | int n => exact absurd rfl (hv n)
        | void | str t => rfl
    · exact h

/-- A value is copied unless the stack is not as deep, and then nothing is taken. -/
theorem dup_eq_error_iff {depth : Nat} :
    dup depth s = .error fault s' ↔
      s.stack.length ≤ depth ∧ .pickUnderflow depth s.stack.length = fault ∧ s = s' := by
  cases hget : s.stack[depth]? with
  | none =>
    have hpick : pick depth s = .error (.pickUnderflow depth s.stack.length) s := by
      rw [pick, hget]
    rw [dup, bind_of_error hpick]
    simp [List.getElem?_eq_none_iff.1 hget]
  | some v =>
    have hpick : pick depth s = .ok v s := by rw [pick, hget]
    have hdepth := (List.getElem?_eq_some_iff.1 hget).1
    rw [dup, bind_of_ok hpick]
    simp [push, Nat.not_le_of_lt hdepth]

/-- Values are dropped unless there are too few, and then nothing is taken. -/
theorem discard_eq_error_iff {count : Nat} :
    discard count s = .error fault s' ↔
      s.stack.length < count ∧ .dropUnderflow count s.stack.length = fault ∧ s = s' := by
  rw [discard, dropExactly?_eq]
  by_cases hcount : count ≤ s.stack.length
  · simp [hcount, Nat.not_lt_of_le hcount]
  · simp [hcount, Nat.lt_of_not_le hcount]

/-- A store fails only on an empty stack. -/
theorem store_eq_error_iff {name : String} :
    store name s = .error fault s' ↔ s.stack = [] ∧ .underflow = fault ∧ s = s' := by
  obtain ⟨stack, vars, output⟩ := s
  cases stack with
  | nil => simp [store, pop, bind, EStateM.bind]
  | cons v rest => simp [store, pop, writeVariable, bind, EStateM.bind]

/-- A fetch fails only for a variable that was never set. -/
theorem fetch_eq_error_iff {name : String} :
    fetch name s = .error fault s' ↔
      s.vars.get? name = none ∧ .unsetVariable name = fault ∧ s = s' := by
  cases hget : s.vars.get? name with
  | none => simp [fetch, readVariable, hget, bind, EStateM.bind]
  | some v => simp [fetch, readVariable, hget, push, bind, EStateM.bind]

/-- A write fails if the output does not take all of it, and then the output has what
    fits. -/
theorem write_eq_error_iff {text : String} :
    write text s = .error fault s' ↔ s.output.accepts text.toUTF8 = false ∧
      .writeFailed = fault ∧ { s with output := s.output.write text.toUTF8 } = s' := by
  unfold write
  generalize text.toUTF8 = bytes
  cases haccepts : s.output.accepts bytes with
  | true => simp [haccepts]
  | false => simp [haccepts]

end Action

namespace Image

variable {image : Image} {argument : Nat} {o : Opcode} {s s' : State} {fault : Fault} {taken : Nat}

/-- An operation on a variable fails if it does not find its name, or else as what it does
    with it. -/
theorem variableName_bind_eq_error_iff {f : String → Action Flow} :
    (image.variableName argument >>= f) s = .error fault s' ↔
      (image.NameFault argument fault ∧ s = s') ∨
      ∃ name, image.constant? argument = some (.str name) ∧ f name s = .error fault s' := by
  rw [variableName, constant]
  constructor
  · intro h
    cases hc : image.constant? argument with
    | none =>
      rw [hc] at h
      cases h
      exact .inl ⟨.noConstant hc, rfl⟩
    | some v =>
      rw [hc] at h
      cases v with
      | str name => exact .inr ⟨name, rfl, h⟩
      | void | int n =>
        cases h
        exact .inl ⟨.notAName hc fun _ => Value.noConfusion, rfl⟩
  · rintro (⟨hfault, rfl⟩ | ⟨name, hc, h⟩)
    · cases hfault with
      | noConstant hc =>
        rw [hc]
        rfl
      | @notAName v hc hv =>
        rw [hc]
        cases v with
        | str name => exact absurd rfl (hv name)
        | void | int n => rfl
    · rw [hc]
      exact h

/-- What an operation that fails has raised. -/
theorem raises_of_execute (ho : o ≠ .invalid)
    (h : image.execute argument o s = .error fault s') :
    ∃ taken, image.Raises argument s o fault taken ∧ s' = s.failing fault taken := by
  cases o with
  | invalid => exact absurd rfl ho
  | ret | call | jump => cases h
  | push =>
    cases hc : image.constant? argument with
    | none =>
      rw [execute, constant, hc] at h
      cases h
      exact ⟨0, .push hc, rfl⟩
    | some v =>
      rw [execute, constant, hc] at h
      cases h
  | jumpIfNot =>
    obtain ⟨stack, vars, output⟩ := s
    cases stack with
    | nil =>
      cases h
      exact ⟨0, .jumpIfNot rfl, rfl⟩
    | cons v rest => cases h
  | print =>
    replace h := Action.next_eq_error_iff.1 h
    obtain ⟨stack, vars, output⟩ := s
    cases stack with
    | nil =>
      cases h
      exact ⟨0, .print rfl, rfl⟩
    | cons v rest =>
      cases v with
      | void =>
        cases h
        exact ⟨1, .void rfl, rfl⟩
      | int n | str t =>
        obtain ⟨haccepts, rfl, rfl⟩ := Action.write_eq_error_iff.1 h
        exact ⟨1, .refused rfl Value.noConfusion haccepts, rfl⟩
  | add | and =>
    replace h := Action.binary_eq_error_iff.1 (Action.next_eq_error_iff.1 h)
    obtain ⟨taken, hfault, hs⟩ | ⟨_, _, _, -, h⟩ := h
    · exact ⟨taken, .operand rfl hfault, hs⟩
    · cases h
  | mod =>
    replace h := Action.binary_eq_error_iff.1 (Action.next_eq_error_iff.1 h)
    obtain ⟨taken, hfault, hs⟩ | ⟨a, b, rest, hs, h⟩ := h
    · exact ⟨taken, .operand rfl hfault, hs⟩
    · split at h
      · rename_i hb
        cases h
        exact ⟨2, .zero (hb ▸ hs), by simp [State.failing, hs]⟩
      · cases h
  | dup =>
    obtain ⟨hlength, rfl, rfl⟩ := Action.dup_eq_error_iff.1 (Action.next_eq_error_iff.1 h)
    exact ⟨0, .dup hlength, rfl⟩
  | drop =>
    obtain ⟨hlength, rfl, rfl⟩ := Action.discard_eq_error_iff.1 (Action.next_eq_error_iff.1 h)
    exact ⟨0, .drop hlength, rfl⟩
  | store =>
    obtain ⟨hfault, rfl⟩ | ⟨name, hname, h⟩ := variableName_bind_eq_error_iff.1 h
    · exact ⟨0, .name (.inl rfl) hfault, by cases hfault <;> rfl⟩
    · obtain ⟨hs, rfl, rfl⟩ := Action.store_eq_error_iff.1 (Action.next_eq_error_iff.1 h)
      exact ⟨0, .store hname hs, rfl⟩
  | fetch =>
    obtain ⟨hfault, rfl⟩ | ⟨name, hname, h⟩ := variableName_bind_eq_error_iff.1 h
    · exact ⟨0, .name (.inr rfl) hfault, by cases hfault <;> rfl⟩
    · obtain ⟨hs, rfl, rfl⟩ := Action.fetch_eq_error_iff.1 (Action.next_eq_error_iff.1 h)
      exact ⟨0, .unset hname hs, rfl⟩

/-- An operation raises what it is said to raise. -/
theorem execute_of_raises (h : image.Raises argument s o fault taken) :
    image.execute argument o s = .error fault (s.failing fault taken) := by
  cases h with
  | push hc =>
    rw [execute, constant, hc]
    rfl
  | dup hlength => exact Action.next_eq_error_iff.2 (Action.dup_eq_error_iff.2 ⟨hlength, rfl, rfl⟩)
  | drop hlength =>
    exact Action.next_eq_error_iff.2 (Action.discard_eq_error_iff.2 ⟨hlength, rfl, rfl⟩)
  | name ho hfault =>
    have hs : s = s.failing fault 0 := by cases hfault <;> rfl
    rcases ho with rfl | rfl
    · exact variableName_bind_eq_error_iff.2 (.inl ⟨hfault, hs⟩)
    · exact variableName_bind_eq_error_iff.2 (.inl ⟨hfault, hs⟩)
  | unset hname hs =>
    refine variableName_bind_eq_error_iff.2 (.inr ⟨_, hname, ?_⟩)
    exact Action.next_eq_error_iff.2 (Action.fetch_eq_error_iff.2 ⟨hs, rfl, rfl⟩)
  | store hname hs =>
    refine variableName_bind_eq_error_iff.2 (.inr ⟨_, hname, ?_⟩)
    exact Action.next_eq_error_iff.2 (Action.store_eq_error_iff.2 ⟨hs, rfl, rfl⟩)
  | jumpIfNot hs | print hs | void hs =>
    obtain ⟨stack, vars, output⟩ := s
    obtain rfl := hs
    rfl
  | @refused v rest hs hv haccepts =>
    obtain ⟨stack, vars, output⟩ := s
    obtain rfl := hs
    refine Action.next_eq_error_iff.2 ?_
    cases v with
    | void => exact absurd rfl hv
    | int n | str t => exact Action.write_eq_error_iff.2 ⟨haccepts, rfl, rfl⟩
  | operand ho hfault =>
    have hbinary {f : Int64 → Int64 → Action Unit} :=
      Action.binary_eq_error_iff (f := f).2 (.inl ⟨taken, hfault, rfl⟩)
    cases o with
    | add | mod | and => exact Action.next_eq_error_iff.2 hbinary
    | _ => cases ho
  | zero hs =>
    obtain ⟨stack, vars, output⟩ := s
    obtain rfl := hs
    refine Action.next_eq_error_iff.2 (Action.binary_eq_error_iff.2 (.inr ⟨_, 0, _, rfl, ?_⟩))
    rw [if_pos rfl]
    rfl

/-- An instruction fails just if it raises a fault. -/
theorem executeAt_eq_error_iff {p : Nat} :
    image.executeAt p s = .error fault s' ↔
      ∃ taken, image.RaisesAt p s fault taken ∧ s' = s.failing fault taken := by
  constructor
  · intro h
    cases hi : image.instruction? p with
    | none =>
      rw [executeAt, hi] at h
      cases h
      exact ⟨0, .outside hi, rfl⟩
    | some i =>
      cases ho : i.opcode? with
      | none =>
        rw [Instruction.opcode?] at ho
        rw [executeAt, hi] at h
        simp only [ho] at h
        cases h
        exact ⟨0, .noHandler hi ho, rfl⟩
      | some o =>
        rw [executeAt_of_opcode? hi ho] at h
        obtain ⟨taken, hraises, hs⟩ := raises_of_execute (Opcode.ofByte?_ne_invalid ho) h
        exact ⟨taken, .operation hi ho hraises, hs⟩
  · rintro ⟨taken, hraises, rfl⟩
    cases hraises with
    | outside hi =>
      rw [executeAt, hi]
      rfl
    | noHandler hi ho =>
      rw [Instruction.opcode?] at ho
      rw [executeAt, hi]
      simp only [ho]
      rfl
    | operation hi ho hraises =>
      rw [executeAt_of_opcode? hi ho]
      exact execute_of_raises hraises

end Image

-- ---------------------------------------------------------------------------
-- Failing runs
-- ---------------------------------------------------------------------------

/-- Of all faults, only that of a write adds to the output. -/
theorem State.written_failing (s : State) (fault : Fault) (taken : Nat) :
    ∃ bytes, (s.failing fault taken).output.written = s.output.written ++ bytes ∧
      (fault ≠ .writeFailed → bytes = .empty) := by
  unfold failing
  dsimp only
  split
  · exact ⟨_, rfl, fun h => absurd rfl h⟩
  · exact ⟨.empty, ByteArray.append_empty.symm, fun _ => rfl⟩

namespace Machine

/-- A step fails by the fault of its instruction, and changes the state only. -/
theorem step_eq_failed_iff {m m' : Machine} {fault : Fault} :
    m.step = (.failed fault, m') ↔
      ∃ taken, m.image.RaisesAt m.ip m.state fault taken ∧
        m' = { m with state := m.state.failing fault taken } := by
  constructor
  · intro h
    unfold step at h
    split at h
    · exact absurd (congrArg Prod.fst h) (follow_ne_failed _ _ _)
    · rename_i hr
      obtain ⟨taken, hraises, rfl⟩ := Image.executeAt_eq_error_iff.1 hr
      cases h
      exact ⟨taken, hraises, rfl⟩
  · rintro ⟨taken, hraises, rfl⟩
    rw [step, Image.executeAt_eq_error_iff.2 ⟨taken, hraises, rfl⟩]

/-- A run fails just if some instructions are completed and the next one raises a fault.
    It leaves the machine as the completed instructions have left it, without the values
    that the failing instruction has taken off the stack. The bytes written so far are
    kept, and only a write that fails may add to them. -/
theorem failed_iff_raises (m m' : Machine) (steps : Nat) (fault : Fault) :
    m.runFor steps = (.failed fault, m') ↔
      ∃ completed last taken, completed < steps ∧ m.runFor completed = (.running, last) ∧
        last.image.RaisesAt last.ip last.state fault taken ∧
        m' = { last with state := last.state.failing fault taken } ∧
        ∃ bytes, m'.state.output.written = last.state.output.written ++ bytes ∧
          (fault ≠ .writeFailed → bytes = .empty) := by
  constructor
  · intro h
    obtain ⟨completed, last, hcompleted, hlast⟩ := exists_last_step h Status.noConfusion
    obtain ⟨taken, hraises, rfl⟩ := step_eq_failed_iff.1 hlast
    obtain ⟨j, rfl, -⟩ := ends_of_running hcompleted (by rw [h]; exact Status.noConfusion)
    exact ⟨completed, last, taken, Nat.lt_add_of_pos_right (Nat.succ_pos j), hcompleted, hraises,
      rfl, last.state.written_failing fault taken⟩
  · rintro ⟨completed, last, taken, hlt, hcompleted, hraises, rfl, -⟩
    have hfailed : m.runFor (completed + 1) = (.failed fault, _) :=
      (runFor_succ hcompleted).trans (step_eq_failed_iff.2 ⟨taken, hraises, rfl⟩)
    obtain ⟨j, rfl⟩ := Nat.exists_eq_add_of_lt hlt
    rw [Nat.add_right_comm, runFor_of_ended (by rw [hfailed]; exact Status.noConfusion), hfailed]

end Machine

end Forth
